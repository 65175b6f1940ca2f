import P4db.Algorithm.LeastLoaded
import P4db.Defs
import P4db.Ee.Args

/-!
# The transactions of the workers

The part of `main` that deals out the transactions of the trace.  Each goes to the worker with the
least remote operations so far; then the workers are made equally long in two rounds, through the
stack `redist`.  All vectors are used from the back, so they are lists here whose head is the back.
-/

namespace P4db.Main

/-! ### Dealing out -/

/-- The variables of the loop that deals out. -/
structure Dealing where
  nRemote : ℕ → ℕ
  perCoreTxns : List (List Txn)

/-- The number of remote operations of a transaction. -/
def nRem (part : PartitionInfo) (txn : Txn) : ℕ :=
  (List.range nOps).countP fun j => !(part.location (txn.coldOps j).id).isLocal

/-- One iteration of this loop. -/
def Dealing.deal (numTxnWorkers : ℕ) (part : PartitionInfo) (st : Dealing) (txn : Txn) : Dealing :=
  let argMin := lowest numTxnWorkers st.nRemote
  { nRemote := Function.update st.nRemote argMin (st.nRemote argMin + nRem part txn)
    perCoreTxns := st.perCoreTxns.modify argMin (txn :: ·) }

/-- `per_core_txns` when all transactions are dealt out. -/
def dealAll (numTxnWorkers : ℕ) (part : PartitionInfo) (txns : List Txn) : List (List Txn) :=
  (txns.foldl (Dealing.deal numTxnWorkers part)
    ⟨fun _ => 0, List.replicate numTxnWorkers []⟩).perCoreTxns

/-! ### Redistribution -/

variable {τ : Type*}

/-- The loop that takes what a worker has too much. -/
def shed (n : ℕ) : List τ → List τ → List τ × List τ
  | [], redist => ([], redist)
  | txn :: core, redist =>
    if (txn :: core).length > n then shed n core (txn :: redist) else (txn :: core, redist)

/-- The loop that gives a worker what it has too little. -/
def fill (n : ℕ) (core : List τ) : List τ → List τ × List τ
  | [] => (core, [])
  | txn :: redist => if core.length < n then fill n (txn :: core) redist else (core, txn :: redist)

/-- One round over all workers. -/
def round (n : ℕ) : List (List τ) → List τ → List (List τ) × List τ
  | [], redist => ([], redist)
  | core :: perCoreTxns, redist =>
    let taken := shed n core redist
    let given := fill n taken.1 taken.2
    let rest := round n perCoreTxns given.2
    (given.1 :: rest.1, rest.2)

/-- The two rounds: the transactions of the workers, and what is left over. -/
def redistribute (numTxns : ℕ) (perCoreTxns : List (List τ)) : List (List τ) × List τ :=
  let n := numTxns / perCoreTxns.length
  let first := round n perCoreTxns []
  round n first.1 first.2

end P4db.Main
