import P4db.Ee.Args

/-!
# Splitting a transaction into hot and cold operations

`extract_hot_cold` of `ee/hot_cold.cpp` with `ORIG_MODE` off.  A loop over the operations moves the
hot ones to the first pass, as long as every register array is used once.  With two passes there may
be two operations on an array, and the hotter of the two goes to the second pass: `total_order_gt`
returns whether its first argument is the smaller one, so the colder operation stays where it is.
What remains is the compacted list of cold operations.  A transaction that does not fit gets its hot
operations back behind the cold ones.
-/

namespace P4db.HotCold

/-- The local variables of the loop.  Indices the source leaves uninitialised start at 0; they are
read only after an assignment. -/
structure State where
  txn : Txn
  layout : DeclusteredLayout
  cold1I : ℕ
  cold2I : ℕ
  cold1V : ℕ
  cold2V : ℕ
  hotP1 : ℕ
  hotP2 : ℕ
  coldP : ℕ
  regUsage : ℕ → Bool
  regUsage2 : ℕ → Bool
  hotReorderBuf : ℕ → ℕ
  nPass2Ops : ℕ

namespace State

/-- The state before the loop. -/
def init (txn : Txn) (layout : DeclusteredLayout) : State where
  txn := { txn with doAccel := true }
  layout := layout
  cold1I := 0
  cold2I := 0
  cold1V := 0
  cold2V := 0
  hotP1 := 0
  hotP2 := 0
  coldP := 0
  regUsage _ := false
  regUsage2 _ := false
  hotReorderBuf _ := 0
  nPass2Ops := 0

/-- `locks.set(lock_pos)` unless the key has no lock. -/
def setLock (locks : BitVec 32) (loc : TupleLocation) : BitVec 32 :=
  if loc.lockPos ≠ noLock then locks ||| (1#32 <<< loc.lockPos) else locks

/-- The first operation on a register array.  The index is noted also when there is one pass only,
where nothing reads it. -/
def addPass1 (st : State) (op : Op) (loc : TupleLocation) : State :=
  { st with
    regUsage := Function.update st.regUsage loc.regArrayId true
    hotReorderBuf := Function.update st.hotReorderBuf loc.regArrayId st.hotP1
    txn := { st.txn with
      hotOpsPass1 := Function.update st.txn.hotOpsPass1 st.hotP1 (op, loc)
      locksCheck := setLock st.txn.locksCheck loc }
    hotP1 := st.hotP1 + 1 }

/-- The second operation on a register array: the colder one of the two stays in the first pass, the
hotter one goes to the second. -/
def addPass2 (st : State) (op : Op) (loc : TupleLocation) : State :=
  let swapIdx := st.hotReorderBuf loc.regArrayId
  let other := st.txn.hotOpsPass1 swapIdx
  let keep := TupleLocation.totalOrderGt other.2.distFreq other.1.id loc.distFreq op.id
  { st with
    regUsage2 := Function.update st.regUsage2 loc.regArrayId true
    nPass2Ops := st.nPass2Ops + 1
    txn := { st.txn with
      hotOpsPass1 :=
        if keep then st.txn.hotOpsPass1 else Function.update st.txn.hotOpsPass1 swapIdx (op, loc)
      hotOpsPass2 :=
        Function.update st.txn.hotOpsPass2 st.hotP2 (if keep then (op, loc) else other)
      locksCheck := setLock st.txn.locksCheck loc
      locksAcquire := setLock st.txn.locksAcquire loc }
    hotP2 := st.hotP2 + 1 }

/-- An operation that fits in no pass: the transaction is not accelerated. -/
def giveUp (st : State) (op : Op) (loc : TupleLocation) : State :=
  { st with
    txn := { st.txn with
      doAccel := false
      hotOpsPass1 := Function.update st.txn.hotOpsPass1 st.hotP1 (op, loc) }
    hotP1 := st.hotP1 + 1 }

/-- A cold operation; the two highest frequencies are tracked on the way. -/
def addCold (st : State) (op : Op) (loc : TupleLocation) : State :=
  let st :=
    if loc.distFreq > st.cold1V then { st with cold1I := st.coldP, cold1V := loc.distFreq }
    else if loc.distFreq > st.cold2V then { st with cold2I := st.coldP, cold2V := loc.distFreq }
    else st
  { st with
    txn := { st.txn with coldOps := Function.update st.txn.coldOps st.coldP op }
    coldP := st.coldP + 1 }

end State

open State

variable (maxPasses : ℕ) (partInfo : PartitionInfo)

/-- One iteration of the loop, on `cold_ops[i]`. -/
def extractStep (st : State) (i : ℕ) : State :=
  let op := { st.txn.coldOps i with locInfo := partInfo.location (st.txn.coldOps i).id }
  let hotInfo := st.layout.getLocation op.id
  let loc := hotInfo.1.2
  let st := { st with
    txn := { st.txn with coldOps := Function.update st.txn.coldOps i op }
    layout := hotInfo.2 }
  if hotInfo.1.1 then
    if !st.regUsage loc.regArrayId then st.addPass1 op loc
    else if maxPasses = 2 ∧ st.regUsage2 loc.regArrayId = false ∧
        st.nPass2Ops < maxOpsPass2Accel then st.addPass2 op loc
    else st.giveUp op loc
  else st.addCold op loc

/-- The loop from index `i` on, with `n` entries of the array left. -/
def extractLoop : ℕ → ℕ → State → State
  | 0, _, st => st
  | n + 1, i, st =>
    if (st.txn.coldOps i).mode = .invalid then st
    else extractLoop n (i + 1) (extractStep maxPasses partInfo st i)

/-- `for (i = 0; i < n; ++i) dst[i + base] = src[i]`. -/
def copyBack (dst : ℕ → Op) (base n : ℕ) (src : ℕ → HotOp) : ℕ → Op :=
  (List.range n).foldl (fun dst i => Function.update dst (i + base) (src i).1) dst

/-- `arr[i].mode = INVALID`. -/
def terminate (arr : ℕ → Op) (i : ℕ) : ℕ → Op :=
  Function.update arr i { arr i with mode := .invalid }

/-- The same on an array of hot operations. -/
def terminateHot (arr : ℕ → HotOp) (i : ℕ) : ℕ → HotOp :=
  Function.update arr i ({ (arr i).1 with mode := .invalid }, (arr i).2)

/-- A transaction that is not accelerated: the hot operations go behind the cold ones. -/
def finishCold (st : State) : Txn :=
  let cold := copyBack st.txn.coldOps st.coldP st.hotP1 st.txn.hotOpsPass1
  { st.txn with
    coldOps := copyBack cold (st.coldP + st.hotP1) st.hotP2 st.txn.hotOpsPass2
    hotOpsPass1 := terminateHot st.txn.hotOpsPass1 0
    hotOpsPass2 := terminateHot st.txn.hotOpsPass2 0
    initDone := true }

/-- An accelerated transaction: the lists are terminated. -/
def finishAccel (st : State) : Txn :=
  { st.txn with
    coldOps := if st.coldP < nOps then terminate st.txn.coldOps st.coldP else st.txn.coldOps
    hotOpsPass1 :=
      if st.hotP1 < nOps then terminateHot st.txn.hotOpsPass1 st.hotP1 else st.txn.hotOpsPass1
    hotOpsPass2 :=
      if maxPasses = 2 ∧ st.hotP2 < maxOpsPass2Accel then
        terminateHot st.txn.hotOpsPass2 st.hotP2
      else st.txn.hotOpsPass2
    hottestColdI1 := if st.cold1V > 0 then some st.cold1I else st.txn.hottestColdI1
    hottestColdI2 := if st.cold2V > 0 then some st.cold2I else st.txn.hottestColdI2
    initDone := true }

/-- `extract_hot_cold`: the transaction and the layout left behind; `none` is the failed assertion
that all `N_OPS` operations were seen. -/
def extractHotCold (txn : Txn) (layout : DeclusteredLayout) : Option (Txn × DeclusteredLayout) :=
  let st := extractLoop maxPasses partInfo nOps 0 (State.init txn layout)
  if st.txn.doAccel then
    if st.coldP + st.hotP1 + st.hotP2 = nOps then
      some (finishAccel maxPasses st, st.layout)
    else none
  else some (finishCold st, st.layout)

/-! ### Subscripts

The model reads and writes its arrays at any index.  These are the conditions under which the source
does not leave the range of an array or of a bit set. -/

/-- The lock bit that `setLock` sets. -/
def LockInRange (loc : TupleLocation) : Prop := loc.lockPos ≠ noLock → loc.lockPos < nSwLocks

/-- The subscripts of one iteration. -/
def StepInRange (st : State) (i : ℕ) : Prop :=
  let hotInfo := st.layout.getLocation (st.txn.coldOps i).id
  let loc := hotInfo.1.2
  if hotInfo.1.1 then
    loc.regArrayId < nRegs ∧
    if !st.regUsage loc.regArrayId then st.hotP1 < nOps ∧ LockInRange loc
    else if maxPasses = 2 ∧ st.regUsage2 loc.regArrayId = false ∧
        st.nPass2Ops < maxOpsPass2Accel then
      st.hotReorderBuf loc.regArrayId < nOps ∧ st.hotP2 < maxOpsPass2Accel ∧ LockInRange loc
    else st.hotP1 < nOps
  else st.coldP < nOps

/-- The subscripts of the loop. -/
def LoopInRange : ℕ → ℕ → State → Prop
  | 0, _, _ => True
  | n + 1, i, st =>
    i < nOps ∧ ((st.txn.coldOps i).mode ≠ .invalid →
      StepInRange maxPasses st i ∧ LoopInRange n (i + 1) (extractStep maxPasses partInfo st i))

/-- The subscripts of `finishCold`; those of `finishAccel` are tested by the source. -/
def FinishInRange (st : State) : Prop :=
  (∀ i < st.hotP1, i + st.coldP < nOps ∧ i < nOps) ∧
    ∀ i < st.hotP2, i + st.coldP + st.hotP1 < nOps ∧ i < maxOpsPass2Accel

/-- All subscripts of `extract_hot_cold`. -/
def ExtractInRange (txn : Txn) (layout : DeclusteredLayout) : Prop :=
  LoopInRange maxPasses partInfo nOps 0 (State.init txn layout) ∧
    let st := extractLoop maxPasses partInfo nOps 0 (State.init txn layout)
    (st.txn.doAccel = false → FinishInRange st)

end P4db.HotCold
