import P4db.Layout.DeclusteredLayout

/-!
# Transactions

`Txn` of `ee/args.hpp`.  The operation arrays have `N_OPS` entries and end early at the first entry
with the mode `INVALID`; here an array is a function of the index, read below its size only.
-/

namespace P4db

/-- An operation on a hot key, with the location of the key. -/
abbrev HotOp := Op × TupleLocation

/-- `Txn`. -/
structure Txn where
  coldOps : ℕ → Op
  hotOpsPass1 : ℕ → HotOp
  hotOpsPass2 : ℕ → HotOp
  initDone : Bool
  doAccel : Bool
  nAborts : ℕ
  hottestColdI1 : Option ℕ
  hottestColdI2 : Option ℕ
  locksCheck : BitVec 32
  locksAcquire : BitVec 32
  id : TxnId
  loaderId : ℕ
  deriving Inhabited

/-- The entries of an array of size `n` before the first that ends it. -/
def terminated {α : Type*} (n : ℕ) (ends : α → Bool) (arr : ℕ → α) : List α :=
  ((List.range n).map arr).takeWhile fun x => !ends x

namespace Txn

/-- `Txn()`.  The array of cold operations is whatever the memory held, until the loader assigns it;
the entries of the other two are pairs, whose constructor clears them. -/
def new (mem : Txn) : Txn :=
  { mem with
    hotOpsPass1 := fun _ => default, hotOpsPass2 := fun _ => default
    initDone := false, doAccel := false, nAborts := 0, hottestColdI1 := none, hottestColdI2 := none,
    locksCheck := 0, locksAcquire := 0, id := TxnId.default }

/-- The cold operations a loop over `cold_ops` visits. -/
def cold (txn : Txn) : List Op :=
  terminated nOps (fun op => op.mode = .invalid) txn.coldOps

/-- The hot operations a loop over `hot_ops_pass1` visits. -/
def hot (txn : Txn) : List HotOp :=
  terminated nOps (fun pr => pr.1.mode = .invalid) txn.hotOpsPass1

/-- The operations a loop over `hot_ops_pass2` visits. -/
def hot2 (txn : Txn) : List HotOp :=
  terminated maxOpsPass2Accel (fun pr => pr.1.mode = .invalid) txn.hotOpsPass2

end Txn

end P4db
