import P4db.Algorithm.Dfs
import P4db.FastLayout.Switch

/-!
# The serializability checker

`serial_checker_t` of `mine/fast_layout/src/switch.cpp`: every access adds a dependency of the
transaction on the one that accessed the value last, and when the program ends the destructor
searches the dependencies for a cycle.

The maps are functions with the values that `operator[]` inserts.  The search is recursive, which is
written with fuel here; `.error .cycle` is the failed assertion at the end, and `.error .root` the
one in the loop.
-/

namespace P4db.FastLayout

/-- `serial_checker_t`. -/
structure SerialChecker where
  deps : ℕ → List ℕ
  maxTid : ℕ

namespace SerialChecker

def init : SerialChecker := ⟨fun _ => [], 0⟩

variable (c : SerialChecker)

/-- `add_dep`. -/
def addDep (tid old : ℕ) : SerialChecker where
  deps := Function.update c.deps tid (c.deps tid ++ [old])
  maxTid := max c.maxTid tid

/-- The search of the destructor. -/
def check (fuel : ℕ) : Except Dfs.Stop (ℕ → Dfs.Color) :=
  Dfs.walkAll c.deps fuel (List.range' 1 c.maxTid)

end SerialChecker

/-- An access of `run_reg_ops`, with what it does to the checker and to the registers. -/
def recordOp (st : SerialChecker × (RegCell → ℕ)) (op : ℕ × RegCell) :
    SerialChecker × (RegCell → ℕ) :=
  (st.1.addDep op.1 (st.2 op.2), Function.update st.2 op.2 op.1)

/-- A history of accesses, from the start. -/
def recordAll (h : List (ℕ × RegCell)) : SerialChecker × (RegCell → ℕ) :=
  h.foldl recordOp (SerialChecker.init, fun _ => 0)

end P4db.FastLayout
