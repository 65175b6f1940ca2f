import Mathlib.Data.Nat.Notation
import Mathlib.Tactic.Common

/-!
# Transactions of the switch simulation

The data types of `mine/fast_layout/src/sim.h`.  Of `sw_txn_t`, the original transaction, its
locations and `one_lock` are left out: the switch and the packet trace do not read them.
`prepare_txns_sw` does, and its `BuiltTxn` keeps the first two.
-/

namespace P4db.FastLayout

/-- `N_STAGES`. -/
def nStages : ℕ := 18
/-- `REGS_PER_STAGE`. -/
def regsPerStage : ℕ := 2
/-- `N_MAX_HOT_OPS`. -/
def nMaxHotOps : ℕ := 8
/-- `N_LOCKS`. -/
abbrev nLocks : ℕ := 32

/-- `sw_pass_txn_t`: the slot that is accessed in each register of each stage, if any. -/
structure SwPassTxn where
  grid : ℕ → ℕ → Option ℕ

/-- `sw_txn_t`. -/
structure SwTxn where
  port : ℕ
  id : ℕ
  passCt : ℕ
  failCt : ℕ
  valid : Bool
  locksCheck : BitVec nLocks
  locksWanted : BitVec nLocks
  locksUndo : BitVec nLocks
  passes : List SwPassTxn

namespace SwPassTxn

/-- The operations in one stage: register and slot. -/
def opsAt (pass : SwPassTxn) (s : ℕ) : List (ℕ × ℕ) :=
  (List.range regsPerStage).filterMap fun r => (pass.grid s r).map fun idx => (r, idx)

theorem mem_opsAt {pass : SwPassTxn} {s : ℕ} {o : ℕ × ℕ} :
    o ∈ pass.opsAt s ↔ o.1 < regsPerStage ∧ pass.grid s o.1 = some o.2 := by
  unfold opsAt
  rw [List.mem_filterMap]
  constructor
  · rintro ⟨r, hr, ho⟩
    obtain ⟨idx, hidx, rfl⟩ := Option.map_eq_some_iff.mp ho
    exact ⟨List.mem_range.mp hr, hidx⟩
  · rintro ⟨hr, hidx⟩
    exact ⟨o.1, List.mem_range.mpr hr, by rw [hidx]; rfl⟩

theorem pairwise_opsAt (pass : SwPassTxn) (s : ℕ) :
    (pass.opsAt s).Pairwise fun o o' => o.1 < o'.1 := by
  apply List.Pairwise.filterMap _ _ List.pairwise_lt_range
  intro r r' hlt o ho o' ho'
  obtain ⟨_, -, rfl⟩ := Option.map_eq_some_iff.mp ho
  obtain ⟨_, -, rfl⟩ := Option.map_eq_some_iff.mp ho'
  exact hlt

/-- The pass with the given operations, in which every register of the switch has a number of its
own. -/
def ofOps (ops : List (ℕ × ℕ)) : SwPassTxn where
  grid s r := (ops.find? fun o => o.1 = s * regsPerStage + r).map Prod.snd

end SwPassTxn

end P4db.FastLayout
