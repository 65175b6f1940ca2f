import Mathlib.Data.List.Sort
import P4db.Algorithm.CountMap
import P4db.Algorithm.Fill
import P4db.Algorithm.Runs
import P4db.Algorithm.UnorderedMap
import P4db.Defs
import P4db.FastLayout.Sim

/-!
# The layout of the switch simulation

`mine/fast_layout/src/layout.cpp` and `get_key_cts` of `batch.cpp`: the keys of a batch of
transactions are counted and put into registers, each into the register of least weight; a
transaction is cut into passes, with one operation on every register at most; and `prepare_txns_sw`
chooses the transactions that the switch gets and the locks for them.

`std::sort` leaves the order of equal elements open, and the order of the entries of a hash map is
open as well.  So the two sorts by counts are a parameter here, which is known only by its
specification `IsSort`.  The sort of the locations of a transaction has no such choice: locations
that may stand in either order are the same.

`none` is a failed assertion or an exception.  The statistics and what is printed are left out.
-/

namespace P4db.FastLayout

open UnorderedMap (emplace emplaceAll empty)

/-- `txn_t`. -/
structure Txn where
  ops : List DbKey
  deriving DecidableEq, Repr

/-- `tuple_loc_t`. -/
structure TupleLoc where
  stage : ℕ
  reg : ℕ
  idx : ℕ
  deriving DecidableEq, Repr

/-- The register of a location, which is all that `operator==` compares. -/
def TupleLoc.register (tl : TupleLoc) : ℕ × ℕ := (tl.stage, tl.reg)

/-! ### Key counts -/

/-- A function that sorts entries by decreasing counts. -/
structure IsSort (sort : List (DbKey × ℕ) → List (DbKey × ℕ)) : Prop where
  perm : ∀ l, (sort l).Perm l
  pairwise : ∀ l, (sort l).Pairwise fun p1 p2 => p2.2 ≤ p1.2

/-- `get_key_cts`. -/
def getKeyCts (sort : List (DbKey × ℕ) → List (DbKey × ℕ)) (txns : List Txn) : List (DbKey × ℕ) :=
  sort (CountMap.countAll (txns.flatMap Txn.ops))

/-! ### The layout -/

/-- `layout_t`. -/
structure Layout where
  forward : DbKey → Option TupleLoc
  backwardPerReg : ℕ × ℕ → ℕ → Option DbKey
  keyCts : DbKey → Option ℕ

/-- The variables of `even_better_random_impl`. -/
structure Placing where
  idxToAlloc : ℕ × ℕ → ℕ
  weight : ℕ × ℕ → ℕ
  forward : DbKey → Option TupleLoc
  backwardPerReg : ℕ × ℕ → ℕ → Option DbKey

/-- The scan for the register of least weight. -/
def lowestReg (weight : ℕ × ℕ → ℕ) : ℕ × ℕ :=
  (List.range nStages).foldl (fun low s => (List.range regsPerStage).foldl
    (fun low r => if weight low > weight (s, r) then (s, r) else low) low) (0, 0)

namespace Placing

def init : Placing := ⟨fun _ => 0, fun _ => 0, empty, fun _ => empty⟩

/-- One iteration of the loop. -/
def place (p : Placing) (pr : DbKey × ℕ) : Placing :=
  let low := lowestReg p.weight
  let loc : TupleLoc := ⟨low.1, low.2, p.idxToAlloc low⟩
  { idxToAlloc := Function.update p.idxToAlloc low (p.idxToAlloc low + 1)
    weight := Function.update p.weight low (p.weight low + pr.2)
    forward := Function.update p.forward pr.1 (some loc)
    backwardPerReg := Function.update p.backwardPerReg low
      (emplace (p.backwardPerReg low) loc.idx pr.1) }

end Placing

namespace Layout

/-- The constructor. -/
def new (sort : List (DbKey × ℕ) → List (DbKey × ℕ)) (txns : List Txn) : Layout :=
  let keysSorted := getKeyCts sort txns
  let p := keysSorted.foldl Placing.place Placing.init
  ⟨p.forward, p.backwardPerReg, emplaceAll empty keysSorted⟩

variable (lay : Layout)

/-- `get_key_ct`. -/
def getKeyCt (key : DbKey) : Option ℕ := lay.keyCts key

/-- `lookup`. -/
def lookup (key : DbKey) : Option TupleLoc := lay.forward key

/-- `rev_lookup`. -/
def revLookup (tl : TupleLoc) : Option DbKey := lay.backwardPerReg tl.register tl.idx

/-- The count of the key at a location. -/
def ctAt (tl : TupleLoc) : Option ℕ := (lay.revLookup tl).bind lay.getKeyCt

end Layout

/-! ### Transactions of the switch -/

/-- `sw_txn_t` with the fields that the switch does not use. -/
structure BuiltTxn extends SwTxn where
  origTxn : Txn
  locs : List TupleLoc

/-- The comparator for the locations of a transaction, which come with the counts of their keys. -/
def locLess (p1 p2 : TupleLoc × ℕ) : Bool :=
  if p1.1.stage ≠ p2.1.stage then p1.1.stage < p2.1.stage
  else if p1.1.reg ≠ p2.1.reg then p1.1.reg < p2.1.reg
  else if p1.2 = p2.2 then p1.1.idx < p2.1.idx
  else p2.2 < p1.2

/-- `std::sort` with `locLess`. -/
def sortLocs (tmp : List (TupleLoc × ℕ)) : List (TupleLoc × ℕ) :=
  tmp.insertionSort fun p1 p2 => locLess p2 p1 = false

/-- `grid[tl.stage][tl.reg] = tl.idx`. -/
def SwPassTxn.setLoc (pass : SwPassTxn) (tl : TupleLoc) : SwPassTxn where
  grid s r := if (s, r) = tl.register then some tl.idx else pass.grid s r

/-- The length of the longest run of locations in one register. -/
def countPasses (tmp : List TupleLoc) : ℕ :=
  (Runs.runs TupleLoc.register tmp).foldl
  (fun nPasses run => if run.length > nPasses then run.length else nPasses) 0

/-- The locations of a run go to the passes from the first one on. -/
def assignRun (passes : List SwPassTxn) (run : List TupleLoc) : Option (List SwPassTxn) :=
  (run.foldlM (Fill.put SwPassTxn.setLoc) (passes, 0)).map Prod.fst

/-- The passes of a sorted list of locations. -/
def assignPasses (tmp : List TupleLoc) : Option (List SwPassTxn) :=
  (Runs.runs TupleLoc.register tmp).foldlM assignRun
  (List.replicate (countPasses tmp) ⟨fun _ _ => none⟩)

/-- The constructor of `sw_txn_t`. -/
def BuiltTxn.new (port : ℕ) (lay : Layout) (txn : Txn) : Option BuiltTxn :=
  if txn.ops.length ≤ 100 then do
    let tmp ← txn.ops.mapM lay.lookup
    let cts ← tmp.mapM lay.ctAt
    let locs := (sortLocs (tmp.zip cts)).map Prod.fst
    let passes ← assignPasses locs
    some ⟨⟨port, 0, 0, 0, true, 0, 0, 0, passes⟩, txn, locs⟩
  else none

/-! ### Preparation -/

/-- `PASS2_ACCEL_THR`. -/
def pass2AccelThr : ℕ := 2

/-- The number of operations of a pass. -/
def SwPassTxn.opCt (pass : SwPassTxn) : ℕ :=
  (List.range nStages).foldl (fun opCt s => (List.range regsPerStage).foldl
    (fun opCt r => if (pass.grid s r).isSome then opCt + 1 else opCt) opCt) 0

/-- The switch gets the transaction. -/
def BuiltTxn.accel (t : BuiltTxn) : Bool :=
  if t.passes.length > 2 then false
  else if t.passes.length = 2 then t.passes[1]?.all fun pass2 => !(pass2.opCt > pass2AccelThr)
  else true

/-- The variables of `prepare_txns_sw`; every transaction has its entry of `to_lock` beside it. -/
structure Prep where
  swTxns : List (BuiltTxn × List TupleLoc)
  lock2ByFreq : List (DbKey × ℕ)
  totalFreq : ℕ

/-- The variables of the loop over the locations of a transaction. -/
structure LocScan where
  pass2mFreqs : ℕ → ℕ
  toLock : List TupleLoc
  lock2ByFreq : List (DbKey × ℕ)
  totalFreq : ℕ

/-- One iteration of this loop. -/
def LocScan.visit (lay : Layout) (st : LocScan) (tl : TupleLoc) : Option LocScan := do
  let freqIdx := tl.stage * regsPerStage + tl.reg
  let k ← lay.revLookup tl
  let freq ← lay.getKeyCt k
  let st := if tl.idx ≠ 0 then
      { st with lock2ByFreq := CountMap.bump k st.lock2ByFreq, totalFreq := st.totalFreq + 1 }
    else st
  let st ← if st.pass2mFreqs freqIdx > 0 then
      if tl.idx ≠ 0 then some { st with toLock := st.toLock ++ [tl] } else none
    else some st
  some { st with pass2mFreqs := Function.update st.pass2mFreqs freqIdx freq }

/-- One iteration of the loop over the transactions. -/
def Prep.visit (port : ℕ) (lay : Layout) (st : Prep) (txn : Txn) : Option Prep := do
  let swTxn ← BuiltTxn.new port lay txn
  if swTxn.accel then
    if swTxn.locs.length = swTxn.origTxn.ops.length then do
      let scan ← swTxn.locs.foldlM (LocScan.visit lay)
        ⟨fun _ => 0, [], st.lock2ByFreq, st.totalFreq⟩
      some ⟨st.swTxns ++ [(swTxn, scan.toLock)], scan.lock2ByFreq, scan.totalFreq⟩
    else none
  else some st

/-- `lock_idxs.insert({k, lock_num})`. -/
def insertLock (lockIdxs : List (DbKey × ℕ)) (k : DbKey) (lockNum : ℕ) : List (DbKey × ℕ) :=
  if k ∈ lockIdxs.map Prod.fst then lockIdxs else lockIdxs ++ [(k, lockNum)]

/-- The inner loop of the grouping: what is left of `lock2_v`, and the map. -/
def fillLock (lockQuantum lockNum : ℕ) :
    List (DbKey × ℕ) → ℕ → List (DbKey × ℕ) → List (DbKey × ℕ) × List (DbKey × ℕ)
  | [], _, lockIdxs => ([], lockIdxs)
  | pr :: lock2V, fsum, lockIdxs =>
    if fsum < lockQuantum then fillLock lockQuantum lockNum lock2V (fsum + pr.2)
      (insertLock lockIdxs pr.1 lockNum)
    else (pr :: lock2V, lockIdxs)

theorem length_fillLock_le (lockQuantum lockNum : ℕ) (lock2V : List (DbKey × ℕ)) (fsum : ℕ)
    (lockIdxs : List (DbKey × ℕ)) :
    (fillLock lockQuantum lockNum lock2V fsum lockIdxs).1.length ≤ lock2V.length := by
  induction lock2V generalizing fsum lockIdxs with
  | nil => exact Nat.le_refl _
  | cons pr lock2V ih =>
    unfold fillLock
    split_ifs
    · exact Nat.le_succ_of_le (ih _ _)
    · exact Nat.le_refl _

/-- The outer loop: the map, and the number of locks. -/
def groupLocks (lockQuantum : ℕ) : List (DbKey × ℕ) → ℕ → List (DbKey × ℕ) → List (DbKey × ℕ) × ℕ
  | [], lockNum, lockIdxs => (lockIdxs, lockNum)
  | pr :: lock2V, lockNum, lockIdxs =>
    let r := fillLock lockQuantum lockNum lock2V pr.2 (insertLock lockIdxs pr.1 lockNum)
    groupLocks lockQuantum r.1 (lockNum + 1) r.2
termination_by lock2V => lock2V.length
decreasing_by exact Nat.lt_succ_of_le (length_fillLock_le _ _ _ _ _)

/-- `lock_idxs[k]`: a missing entry is inserted with the value 0. -/
def lockOf (lockIdxs : List (DbKey × ℕ)) (k : DbKey) : ℕ := (lockIdxs.lookup k).getD 0

/-- `locks.set(lock_idx)` for the key of a location. -/
def setLock (lay : Layout) (lockIdxs : List (DbKey × ℕ)) (locks : BitVec nLocks) (tl : TupleLoc) :
    Option (BitVec nLocks) := do
  let k ← lay.revLookup tl
  if lockOf lockIdxs k < nLocks then some (locks ||| BitVec.twoPow nLocks (lockOf lockIdxs k))
    else none

/-- The locks of a transaction. -/
def fillLocks (lay : Layout) (lockIdxs : List (DbKey × ℕ)) (p : BuiltTxn × List TupleLoc) :
    Option BuiltTxn := do
  let check ← p.1.locs.foldlM (setLock lay lockIdxs) p.1.locksCheck
  let wanted ← p.2.foldlM (setLock lay lockIdxs) p.1.locksWanted
  if wanted &&& check = wanted then some { p.1 with locksCheck := check, locksWanted := wanted }
    else none

/-- The first loop of `prepare_txns_sw`. -/
def scanTxns (port : ℕ) (txns : List Txn) (lay : Layout) : Option Prep :=
  txns.foldlM (Prep.visit port lay) ⟨[], [], 0⟩

/-- The assignment of locks to keys. -/
def assignLocks (sort : List (DbKey × ℕ) → List (DbKey × ℕ)) (prep : Prep) : List (DbKey × ℕ) × ℕ :=
  groupLocks ((prep.totalFreq + nLocks - 1) / nLocks) (sort prep.lock2ByFreq) 0 []

/-- `prepare_txns_sw`. -/
def prepareTxnsSw (sort : List (DbKey × ℕ) → List (DbKey × ℕ)) (port : ℕ) (txns : List Txn)
    (lay : Layout) :
    Option (List BuiltTxn) := do
  let prep ← scanTxns port txns lay
  let lockIdxs := (assignLocks sort prep).1
  if lockIdxs.length = prep.lock2ByFreq.length then
    prep.swTxns.mapM (fillLocks lay lockIdxs)
  else none

end P4db.FastLayout
