import Mathlib.Logic.Function.Basic
import Mathlib.Tactic.Common
import P4db.Algorithm.Transition

/-!
# The barrier between two nodes

`comm/handlers/barrier.cpp` for `num_nodes = 2`.  `wait_nodes` runs `critical_wait`: `my_wait` sends
one `Barrier` message to the peer and spins until it reads `received == num_nodes - 1`; after that
`critical_wait` subtracts 1.  The network thread runs `handle` for every arriving message, which
adds 1 to the same counter.

The threads of the two nodes and the network interleave freely.  A node takes one step to enter, one
to read the awaited value and one to subtract; a message takes one step to arrive, in the order of
sending.  Node `i` has the peer `!i`.
-/

namespace P4db.Barrier

/-- Nodes the barrier is for. -/
def numNodes : UInt32 := 2

/-- `msg::Barrier`. -/
structure BarrierMsg where
  sender : Bool
  num : UInt32
  deriving DecidableEq, Repr

/-- Where the thread that runs barriers is. -/
inductive Phase
  /-- Not in `critical_wait`. -/
  | outside
  /-- In the loop of `my_wait`. -/
  | waiting
  /-- Past the loop, before the subtraction. -/
  | leaving
  deriving DecidableEq, Repr

/-- One node: the handler's counter, the messages on their way to it, oldest first, and the
counter the barriers are numbered by.  The last four numbers are history: barriers entered, barriers
whose exit condition was read, barriers completed, and messages delivered. -/
structure Node where
  phase : Phase
  received : UInt32
  inbox : List BarrierMsg
  idCtr : UInt32
  entered : ℕ
  left : ℕ
  completed : ℕ
  delivered : ℕ
  deriving DecidableEq, Repr

namespace Node

/-- A node before its first barrier. -/
def init : Node := ⟨.outside, 0, [], 1, 0, 0, 0, 0⟩

/-- `wait_nodes` up to the loop of `my_wait`, on the side of the sender. -/
def enter (n : Node) : Node :=
  { n with phase := .waiting, idCtr := n.idCtr + 1, entered := n.entered + 1 }

/-- A message is put on the wire to this node. -/
def push (n : Node) (m : BarrierMsg) : Node := { n with inbox := n.inbox ++ [m] }

/-- `handle` for the next message `m`, of which `rest` remain on the wire. -/
def handle (n : Node) (rest : List BarrierMsg) : Node :=
  { n with received := n.received + 1, inbox := rest, delivered := n.delivered + 1 }

/-- The loop of `my_wait` ends. -/
def observe (n : Node) : Node := { n with phase := .leaving, left := n.left + 1 }

/-- The subtraction in `critical_wait`. -/
def finish (n : Node) : Node :=
  { n with phase := .outside, received := n.received - 1, completed := n.completed + 1 }

end Node

/-- The two nodes. -/
abbrev State := Bool → Node

/-- Both nodes before their first barrier. -/
def init : State := fun _ => Node.init

/-- The steps of node `i` and of the network towards it. -/
inductive Action
  | enter (i : Bool)
  | deliver (i : Bool)
  | observe (i : Bool)
  | finish (i : Bool)
  deriving DecidableEq, Repr

/-- One step; `none` when it is not enabled. -/
def step (s : State) : Action → Option State
  | .enter i =>
    if (s i).phase = .outside then
      some (Function.update (Function.update s i (s i).enter) (!i)
        ((s !i).push ⟨i, (s i).idCtr⟩))
    else none
  | .deliver i =>
    match (s i).inbox with
    | [] => none
    | _ :: rest => some (Function.update s i ((s i).handle rest))
  | .observe i =>
    if (s i).phase = .waiting ∧ (s i).received = numNodes - 1 then
      some (Function.update s i (s i).observe)
    else none
  | .finish i =>
    if (s i).phase = .leaving then some (Function.update s i (s i).finish) else none

end P4db.Barrier
