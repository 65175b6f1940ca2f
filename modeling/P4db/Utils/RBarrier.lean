import Mathlib.Logic.Function.Basic
import Mathlib.Tactic.Common

/-!
# The reusable barrier of threads

`reusable_barrier_t::wait` of `utils/rbarrier.hpp`.  The threads that come to the barrier are
counted in `enter_ct`. The last one resets the counter, which lets the others go, and the middle
function is called, by all threads or by this one only.  The threads are counted once more in
`exit_ct`, and the last one resets this.

A step of a thread is one atomic access to a counter, or the beginning or the end of a call of the
middle function. The threads interleave freely, and a thread that is not in `wait` may call it
again.  The counters are 32 bits wide.
-/

namespace P4db.RBarrier

/-- What a thread does next. -/
inductive Pc
  /-- Not in `wait`. -/
  | outside
  /-- `enter_ct = 0` -/
  | resetEnter
  /-- `while (enter_ct != 0)` -/
  | spinEnter
  /-- `mf(arg)` is called. -/
  | beforeMiddle
  /-- `mf(arg)` returns. -/
  | inMiddle
  /-- `__atomic_add_fetch(&exit_ct, 1, ..)` -/
  | beforeExit
  /-- `exit_ct = 0` -/
  | resetExit
  /-- `while (exit_ct != 0)` -/
  | spinExit
  deriving DecidableEq, Repr

/-- A thread: where it is, its `my_enter_ct`, and the number of times that it has returned from
`wait`. -/
structure Thread where
  pc : Pc
  myEnterCt : UInt32
  round : ℕ
  deriving DecidableEq, Repr

/-- The number of times that a thread has entered. -/
def Thread.entered (t : Thread) : ℕ := if t.pc = .outside then t.round else t.round + 1

variable (nThreads : UInt32) (single : Bool)

/-- The barrier and its threads.  The other fields record what has happened: how often a counter was
reset, and the calls of the middle function in each round that have begun and that have ended. -/
structure State where
  enterCt : UInt32
  exitCt : UInt32
  thread : Fin nThreads.toNat → Thread
  resets : ℕ
  started : ℕ → ℕ
  finished : ℕ → ℕ

/-- No thread has come to the barrier. -/
def State.init : State nThreads := ⟨0, 0, fun _ => ⟨.outside, 0, 0⟩, 0, fun _ => 0, fun _ => 0⟩

/-- `if (!single || my_enter_ct == n_threads)`. -/
def callsMiddle (t : Thread) : Bool := !single || t.myEnterCt == nThreads

variable {nThreads}

/-- Thread `i` becomes `t`. -/
def State.set (s : State nThreads) (i : Fin nThreads.toNat) (t : Thread) : State nThreads :=
  { s with thread := Function.update s.thread i t }

/-- Where a thread goes when the others have come. -/
def afterEnter (nThreads : UInt32) (single : Bool) (t : Thread) : Thread :=
  { t with pc := if callsMiddle nThreads single t then .beforeMiddle else .beforeExit }

/-- The return from `wait`. -/
def Thread.leave (t : Thread) : Thread := { t with pc := .outside, round := t.round + 1 }

/-- A step of thread `i`. -/
def State.step (s : State nThreads) (i : Fin nThreads.toNat) : State nThreads :=
  let t := s.thread i
  match t.pc with
  | .outside =>
    let my := s.enterCt + 1
    { s.set i { t with
      myEnterCt := my, pc := if my = nThreads then .resetEnter else .spinEnter } with enterCt :=
        my }
  | .resetEnter =>
    { s.set i (afterEnter nThreads single t) with enterCt := 0, resets := s.resets + 1 }
  | .spinEnter => if s.enterCt ≠ 0 then s else s.set i (afterEnter nThreads single t)
  | .beforeMiddle =>
    { s.set i { t with pc := .inMiddle } with
      started := Function.update s.started t.round (s.started t.round + 1) }
  | .inMiddle =>
    { s.set i { t with pc := .beforeExit } with
      finished := Function.update s.finished t.round (s.finished t.round + 1) }
  | .beforeExit =>
    let ct := s.exitCt + 1
    { s.set i { t with pc := if ct = nThreads then .resetExit else .spinExit } with exitCt := ct }
  | .resetExit => { s.set i t.leave with exitCt := 0, resets := s.resets + 1 }
  | .spinExit => if s.exitCt ≠ 0 then s else s.set i t.leave

end P4db.RBarrier
