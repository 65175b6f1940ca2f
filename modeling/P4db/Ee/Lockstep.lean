import P4db.Comm.Barrier
import P4db.Ee.HotPeriod
import P4db.Ee.TxnExecutor
import P4db.Utils.RBarrier

/-!
# Two nodes in lockstep

The loop of `txn_executor` on all worker threads of two nodes, with the barriers that keep the
threads together, around the executor of `Ee/Executor`.

`main` waits for the other node and then creates the workers.  A worker calls `wait_workers` once,
and then again at the end of every mini-batch: the last thread of the node to come waits for the
other node in `critical_wait`, while the others wait for it.  After the mini-batches of a batch, and
the one that empties the queues, thread 0 runs the hot period, with its own calls of `wait_nodes`,
and empties the hot send queue.  Then all threads of the node meet in `batch_bar`, where each of
them runs its leftover transactions.

Which transactions a thread calls `my_execute` and `execute` with, and how many, is left open.  A
thread may stop at any time; the last call of `wait_nodes` in `main`, when all workers have
returned, is not modelled.  The scheduler of the switch blocks is not modelled either, nor are the
replies of the switch, which nobody reads.  The events of a hot period are found from the hot send
queue when it begins; no thread of the node is in a mini-batch then.  A failed assertion is not
enabled.

The field `sent` records the packets in the order in which they are sent to the switch.
-/

namespace P4db

/-- The calls of `wait_workers` in a batch: one for each mini-batch, and one more. -/
def roundsPerBatch : ℕ := batchSizeTgt / miniBatchSizeTgt + 1

namespace Lockstep

/-- A hot period: `exec.mini_batch_num`, what thread 0 has done and what it has still to do. -/
structure HotRun (π : Type) where
  miniBatchNum : ℕ
  done : List (HotEvent Attempt π)
  todo : List (HotEvent Attempt π)

/-- Packets that were sent: by which node, in which of its hot periods, what that hot period had
done before, and the packets, alone or in a window. -/
structure Sending (π : Type) where
  node : Bool
  batch : ℕ
  done : List (HotEvent Attempt π)
  event : HotEvent Attempt π

variable (n : Bool → UInt32) (π : Type)

/-- The nodes are `false` and `true`, with the numbers 0 and 1; `n` says how many workers they
have. -/
structure State where
  sys : System
  /-- `main` has called `wait_nodes` -/
  up : Bool → Bool
  /-- the `BarrierHandler`s -/
  nodes : Barrier.State
  localBarrier : (i : Bool) → RBarrier.State (n i)
  batchBar : (i : Bool) → RBarrier.State (n i)
  pastMbNum : Bool → ℕ
  hot : Bool → Option (HotRun π)
  sent : List (Sending π)

/-- What a thread or the network does next. -/
inductive Action
  /-- `main` calls `wait_nodes`. -/
  | main (i : Bool)
  /-- `run_txn` calls `my_execute`. -/
  | call (i : Bool) (t : Fin (n i).toNat) (txn : Txn)
  /-- `run_leftover_txns` calls `execute`. -/
  | leftover (i : Bool) (t : Fin (n i).toNat) (txn : Txn)
  /-- A thread takes the next step of its call, or a tuple message is handled. -/
  | exec (a : System.Action)
  | waitWorkers (i : Bool) (t : Fin (n i).toNat)
  | batchBar (i : Bool) (t : Fin (n i).toNat)
  /-- A `Barrier` message is handled, or `critical_wait` goes on. -/
  | barrier (a : Barrier.Action)
  | runHotPeriod (i : Bool) (t : Fin (n i).toNat) (startFill endFill : List π)
  /-- The next event of the hot period. -/
  | hotEvent (i : Bool)
  | doneSending (i : Bool)

variable {n π}

/-- The worker as the executor knows it. -/
def worker (i : Bool) (t : Fin (n i).toNat) : NodeT := ⟨i.toNat, t⟩

/-- Before `main` on both nodes. -/
def State.init (value : ℕ → DbKey → BitVec 32) (mem : ℕ → ℕ → HotTxnEntry Attempt) : State n π where
  sys := System.init value mem
  up _ := false
  nodes := Barrier.init
  localBarrier i := RBarrier.State.init (n i)
  batchBar i := RBarrier.State.init (n i)
  pastMbNum _ := 1
  hot _ := none
  sent := []

namespace State

variable (s : State n π) (i : Bool) (t : Fin (n i).toNat)

/-- The process of the node has not ended. -/
def Live : Prop := s.sys.halted i.toNat = none

/-- The thread is not in a call. -/
def Idle : Prop := (s.sys.threads (worker i t)).phase = .idle

/-- How often the thread has returned from `wait_workers`.  From the first time on this is
`tb.mini_batch_num`. -/
def round : ℕ := ((s.localBarrier i).thread t).round

/-- How often the thread has entered `wait_workers`. -/
def entered : ℕ := ((s.localBarrier i).thread t).entered

/-- How many batches the thread has completed. -/
def batchNum : ℕ := ((s.batchBar i).thread t).round

/-- The thread is in neither barrier. -/
def Outside : Prop :=
  ((s.localBarrier i).thread t).pc = .outside ∧ ((s.batchBar i).thread t).pc = .outside

/-- The thread is in one of the loops that run transactions. -/
def InMiniBatch : Prop :=
  s.Outside i t ∧ 1 ≤ s.round i t ∧ s.round i t ≤ roundsPerBatch * (s.batchNum i t + 1)

/-- The thread is behind these loops. -/
def AtBatchEnd : Prop := s.Outside i t ∧ s.round i t = roundsPerBatch * (s.batchNum i t + 1) + 1

instance : Decidable (s.Live i) := inferInstanceAs (Decidable (_ = _))
instance : Decidable (s.Idle i t) := inferInstanceAs (Decidable (_ = _))
instance : Decidable (s.Outside i t) := inferInstanceAs (Decidable (_ ∧ _))
instance : Decidable (s.InMiniBatch i t) := inferInstanceAs (Decidable (_ ∧ _))
instance : Decidable (s.AtBatchEnd i t) := inferInstanceAs (Decidable (_ ∧ _))

/-- The thread takes a step in `local_barrier.wait`. -/
def stepLocal : State n π :=
  { s with localBarrier := Function.update s.localBarrier i ((s.localBarrier i).step true t) }

/-- The thread takes a step in `batch_bar.wait`. -/
def stepBatch : State n π :=
  { s with batchBar := Function.update s.batchBar i ((s.batchBar i).step false t) }

/-- `critical_wait` is called. -/
def criticalWait : Option (State n π) :=
  (Barrier.step s.nodes (.enter i)).map fun nodes => { s with nodes := nodes }

/-- `wait_workers`. -/
def waitWorkers : Option (State n π) :=
  match ((s.localBarrier i).thread t).pc with
  | .outside =>
    if s.Idle i t ∧ ((s.batchBar i).thread t).pc = .outside ∧
        (s.round i t = 0 ∧ s.up i = true ∧ (s.nodes i).phase = .outside ∨ s.InMiniBatch i t) then
      some (s.stepLocal i t)
    else none
  | .beforeMiddle => (s.stepLocal i t).criticalWait i
  | .inMiddle => if (s.nodes i).phase = .outside then some (s.stepLocal i t) else none
  | _ => some (s.stepLocal i t)

/-- `batch_bar.wait`; the middle function is `single_db_section`, with its assertion at the end. -/
def waitBatch : Option (State n π) :=
  match ((s.batchBar i).thread t).pc with
  | .outside =>
    if s.Idle i t ∧ s.AtBatchEnd i t ∧ (t.val = 0 → s.sys.batch i.toNat = s.batchNum i t + 1) then
      some (s.stepBatch i t)
    else none
  | .inMiddle =>
    if s.Idle i t ∧ (s.sys.hotSendQ i.toNat).sendQTail = 0 then some (s.stepBatch i t) else none
  | _ => some (s.stepBatch i t)

/-- The hot period begins. -/
def runHotPeriod (startFill endFill : List π) : Option (State n π) :=
  if t.val = 0 ∧ s.Idle i t ∧ s.AtBatchEnd i t ∧ s.sys.batch i.toNat = s.batchNum i t ∧
    (s.hot i).isNone then
    (HotPeriod.runHotPeriod startFill endFill (s.sys.hotSendQ i.toNat) (s.pastMbNum i)
      (s.round i t)).map fun evs =>
      { s with hot := Function.update s.hot i (some ⟨s.round i t, [], evs⟩) }
  else none

/-- The next event of the hot period; a call of `wait_nodes` has returned when the node is outside
the barrier again. -/
def hotEvent : Option (State n π) :=
  match s.hot i with
  | some ⟨mb, done, ev :: todo⟩ =>
    if (s.nodes i).phase = .outside then
      let s' := { s with hot := Function.update s.hot i (some ⟨mb, done ++ [ev], todo⟩) }
      match ev with
      | .waitNodes => s'.criticalWait i
      | _ => some { s' with sent := s.sent ++ [⟨i, s.sys.batch i.toNat, done, ev⟩] }
    else none
  | _ => none

/-- The end of the hot period, and `done_sending`. -/
def doneSending (c : Config) : Option (State n π) :=
  match s.hot i with
  | some ⟨mb, _, []⟩ =>
    if (s.nodes i).phase = .outside then
      (s.sys.step c (.doneSending i.toNat)).map fun sys => { s with
        sys := sys
        pastMbNum := Function.update s.pastMbNum i mb
        hot := Function.update s.hot i none }
    else none
  | _ => none

/-- A step of the executor. -/
def runSys (c : Config) (a : System.Action) : Option (State n π) :=
  (s.sys.step c a).map fun sys => { s with sys := sys }

end State

/-- The node that acts. -/
def Action.node : Action n π → Option Bool
  | .main i | .call i _ _ | .leftover i _ _ | .waitWorkers i _ | .batchBar i _
  | .runHotPeriod i _ _ _ | .hotEvent i
  | .doneSending i => some i
  | .exec _ => none
  | .barrier (.enter i) | .barrier (.deliver i) | .barrier (.observe i) | .barrier (.finish i) =>
    some i

/-- What an action does, if it is enabled. -/
def exec (c : Config) (s : State n π) : Action n π → Option (State n π)
  | .main i =>
    if s.up i = true then none else { s with up := Function.update s.up i true }.criticalWait i
  | .call i t txn =>
    if s.InMiniBatch i t then s.runSys c (.start (worker i t) txn (some (s.round i t))) else none
  | .leftover i t txn =>
    if ((s.batchBar i).thread t).pc = .inMiddle then s.runSys c
      (.start (worker i t) txn none) else none
  | .exec (.thread w early) => s.runSys c (.thread w early)
  | .exec (.deliver p) => s.runSys c (.deliver p)
  | .exec _ => none
  | .waitWorkers i t => s.waitWorkers i t
  | .batchBar i t => s.waitBatch i t
  | .barrier (.enter _) => none
  | .barrier a => (Barrier.step s.nodes a).map fun nodes => { s with nodes := nodes }
  | .runHotPeriod i t startFill endFill => s.runHotPeriod i t startFill endFill
  | .hotEvent i => s.hotEvent i
  | .doneSending i => s.doneSending i c

/-- One step; a node that has halted takes none. -/
def step (c : Config) (s : State n π) (a : Action n π) : Option (State n π) :=
  if ∀ i ∈ a.node, s.Live i then exec c s a else none

end Lockstep

end P4db
