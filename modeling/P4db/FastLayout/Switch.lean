import Mathlib.Data.Int.Basic
import P4db.Algorithm.Conflict
import P4db.FastLayout.Sim

/-!
# The simulated switch

`switch_t` of `mine/fast_layout/src/switch.cpp`, with `whole_pipe_lock` for `manage_locks`, and the
pool of `mempool.h`.  A transaction that is sent gets a slot of the pool.  The slot moves from an
input buffer to the parser behind it and from there through the stages of the pipeline, where the
transaction accesses the registers of each stage.  At the end it goes to the egress, or back to the
input buffer of the recirculation port if the transaction has more passes to do, or if it was not
let in.

The lock is for the whole pipeline.  A transaction of several passes takes it when it is first let
in, and releases it when it enters its last pass; meanwhile all others pass through the pipeline
without effect.

Transactions are numbered without bound.  A pass that does not exist is a fault, and so are a port
that does not exist and a slot from an empty pool.
-/

namespace P4db.FastLayout

/-- `N_PORTS`. -/
def nPorts : ℕ := 32
/-- `N_PORT_GROUPS`. -/
def nPortGroups : ℕ := 8
/-- `RECIRC_PORT`. -/
def recircPort : ℕ := 8
/-- `IPB_SIZE`. -/
def ipbSize : ℕ := 500
/-- `MAX_FAIL_CT`. -/
def maxFailCt : ℕ := 24
/-- The slots of `txn_pool_t`. -/
def poolSize : ℕ := 4096

/-- A value of `regs_`: stage, register and slot. -/
abbrev RegCell := ℕ × ℕ × ℕ

/-- An access of a transaction in one of its passes: it reads `old` and writes its own number. -/
structure RegOp where
  txn : ℕ
  pass : ℕ
  cell : RegCell
  old : ℕ
  deriving DecidableEq, Repr

/-- `switch_t`, and the static variables of `send` and `whole_pipe_lock`.  The last four fields
record what has happened: the accesses, the transactions in the order in which they first entered
the pipeline as valid ones, those that `send` took, and what `recv` returned. -/
structure SimSwitch where
  pool : ℕ → SwTxn
  freeList : List ℕ
  ipb : ℕ → List ℕ
  parser : ℕ → Option ℕ
  pipe : ℕ → Option ℕ
  egress : ℕ → List (Bool × ℕ)
  regs : RegCell → ℕ
  holder : Option ℕ
  incrId : ℕ
  history : List RegOp
  order : List ℕ
  accepted : List SwTxn
  returned : List (Bool × ℕ)

/-- `port_to_group`. -/
def portToGroup (port : ℕ) : ℕ := port / (nPorts / nPortGroups)

namespace SimSwitch

/-- The switch at the start; the pool has transactions that nothing reads. -/
def init (pool : ℕ → SwTxn) : SimSwitch where
  pool := pool
  freeList := List.range poolSize
  ipb _ := []
  parser _ := none
  pipe _ := none
  egress _ := []
  regs _ := 0
  holder := none
  incrId := 1
  history := []
  order := []
  accepted := []
  returned := []

variable (s : SimSwitch)

/-- `send`: whether there was room for the transaction. -/
def send (txn : SwTxn) : Option (Bool × SimSwitch) :=
  let group := portToGroup txn.port
  if 0 < txn.passes.length ∧ txn.port < nPorts then
    if (s.ipb group).length < ipbSize then
      match s.freeList with
      | [] => none
      | slot :: rest =>
        let txn := { txn with id := s.incrId }
        some (true, { s with
          incrId := s.incrId + 1
          freeList := rest
          pool := Function.update s.pool slot txn
          ipb := Function.update s.ipb group (s.ipb group ++ [slot])
          accepted := s.accepted ++ [txn] })
    else some (false, s)
  else none

/-! ### A cycle -/

/-- One access of `run_reg_ops`, in stage `i`. -/
def regOp (txn : SwTxn) (i : ℕ) (s : SimSwitch) (o : ℕ × ℕ) : SimSwitch :=
  let cell := (i, o.1, o.2)
  { s with
    regs := Function.update s.regs cell txn.id
    history := s.history ++ [⟨txn.id, txn.passCt, cell, s.regs cell⟩] }

/-- `run_reg_ops`. -/
def runRegOps (i : ℕ) : Option SimSwitch :=
  match s.pipe i with
  | none => some s
  | some slot =>
    let txn := s.pool slot
    if txn.valid then do
      let pass ← txn.passes[txn.passCt]?
      some ((pass.opsAt i).foldl (regOp txn i) s)
    else some s

/-- The transaction in the last stage leaves the pipeline. -/
def exitPipe : SimSwitch :=
  match s.pipe (nStages - 1) with
  | none => s
  | some slot =>
    let txn := s.pool slot
    let txn := if txn.valid then { txn with passCt := txn.passCt + 1 } else txn
    if txn.passes.length = txn.passCt then
      { s with
        pool := Function.update s.pool slot txn
        egress := Function.update s.egress txn.port (s.egress txn.port ++ [(true, slot)]) }
    else if txn.passCt = 0 ∧ txn.failCt ≥ maxFailCt ∧ txn.locksUndo = 0 then
      { s with
        pool := Function.update s.pool slot txn
        egress := Function.update s.egress txn.port (s.egress txn.port ++ [(false, slot)]) }
    else
      { s with
        pool := Function.update s.pool slot { txn with valid := true }
        ipb := Function.update s.ipb recircPort (s.ipb recircPort ++ [slot]) }

/-- The loop over the stages `n, .., 1`. -/
def shift : ℕ → SimSwitch → Option SimSwitch
  | 0, s => some s
  | i + 1, s => do
    let s ← s.runRegOps i
    shift i { s with pipe := Function.update s.pipe (i + 1) (s.pipe i) }

/-- `ipb_to_parser`. -/
def ipbToParser (i : ℕ) : SimSwitch :=
  match s.ipb i with
  | [] => s
  | slot :: rest =>
    { s with parser := Function.update s.parser i (some slot), ipb := Function.update s.ipb i rest }

/-- The parser whose transaction goes next, and the variable `idx_ipb_size`, which is -1 if there is
none. -/
def arbitrate : ℕ × ℤ :=
  if (s.parser recircPort).isSome then (recircPort, 0)
  else (List.range nPortGroups).foldl (fun (idx, size) i =>
    if (s.parser i).isSome ∧ ((s.ipb i).length : ℤ) > size then (i, (s.ipb i).length)
      else (idx, size)) (0, -1)

/-- `whole_pipe_lock`: whether the transaction is let in, and the new holder of the lock. -/
def wholePipeLock (holder : Option ℕ) (txn : SwTxn) : Bool × Option ℕ :=
  match holder with
  | none => (true, if txn.passes.length ≥ 2 then some txn.id else none)
  | some h =>
    if h = txn.id then (true, if txn.passes.length = txn.passCt + 1 then none else some h)
    else (false, some h)

/-- A transaction enters the pipeline, if a parser has one. -/
def enterPipe : SimSwitch :=
  let next := s.arbitrate
  let idx := next.1
  if next.2 = -1 then { s with pipe := Function.update s.pipe 0 none }
  else
    match s.parser idx with
    | none => s
    | some slot =>
      let txn := s.pool slot
      let lock := wholePipeLock s.holder txn
      ipbToParser { s with
        pool := Function.update s.pool slot { txn with valid := lock.1 }
        holder := lock.2
        pipe := Function.update s.pipe 0 (some slot)
        parser := Function.update s.parser idx none
        order := if lock.1 ∧ txn.id ∉ s.order then s.order ++ [txn.id] else s.order } idx

/-- The loop that fills the parsers. -/
def fillParsers : SimSwitch :=
  (List.range (1 + nPortGroups)).foldl (fun s i =>
    if (s.parser i).isNone then s.ipbToParser i else s) s

/-- `run_cycle`. -/
def runCycle : Option SimSwitch := do
  let s ← s.runRegOps (nStages - 1)
  let s ← shift (nStages - 1) s.exitPipe
  some s.enterPipe.fillParsers

/-- `recv`: whether the transaction succeeded, and its number. -/
def recv (port : ℕ) : Option (Option (Bool × ℕ) × SimSwitch) :=
  if port < nPorts then
    match s.egress port with
    | [] => some (none, s)
    | (success, slot) :: rest =>
      let res := (success, (s.pool slot).id)
      some (some res, { s with
        egress := Function.update s.egress port rest
        freeList := slot :: s.freeList
        returned := s.returned ++ [res] })
  else none

/-! ### Runs -/

/-- The calls. -/
inductive Call
  | send (txn : SwTxn)
  | runCycle
  | recv (port : ℕ)

/-- A call; a transaction is sent as its constructor makes it. -/
def step : Call → Option SimSwitch
  | .send txn => if txn.passCt = 0 then (s.send txn).map Prod.snd else none
  | .runCycle => s.runCycle
  | .recv port => (s.recv port).map Prod.snd

end SimSwitch

end P4db.FastLayout
