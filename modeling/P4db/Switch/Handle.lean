import Mathlib.Logic.Function.Basic
import P4db.Algorithm.SortedSet
import P4db.Defs

/-!
# Blocks of the switch

`switch_src/01_control_plane/handle.cpp`.  The memory of the switch is divided into blocks.  A
tenant asks for a block for some time in the future (`handle_alloc`) and gives it back when it is
done (`handle_free`).  The block is chosen by estimates of when the blocks become free; since these
may be wrong, every block has a queue of tenants, and the tenant at the front is put in the set
`to_notify` when its turn comes.  `get_ready` returns this set by reference, so that the caller can
erase from it.

`none` is a failed assertion, or an access outside an array.  The field `nReady` only records how
often a tenant was put in the set since it last asked for a block.
-/

namespace P4db

/-- `N_BLOCKS`. -/
def nBlocks : ℕ := 2048 / 64
/-- `N_MAX_TENANTS`. -/
def nMaxTenants : ℕ := 150
/-- `NO_TENANT`. -/
def noTenant : ℕ := 0
/-- `INIT_TS`. -/
def initTs : ℕ := 0

/-- `blk_meta_t`. -/
structure BlkMeta where
  blkId : ℕ
  estFinishTs : ℕ
  deriving DecidableEq, Repr

/-- `blk_meta_cmp_t`. -/
def BlkMeta.cmp (lhs rhs : BlkMeta) : Bool :=
  if lhs.estFinishTs = rhs.estFinishTs then lhs.blkId < rhs.blkId
  else lhs.estFinishTs < rhs.estFinishTs

/-- `tenant_reqs_t`. -/
structure TenantReqs where
  started : Bool
  nWaiting : ℕ
  deriving DecidableEq, Repr

/-- The variables of `handle.cpp`. -/
structure Handle where
  blocksSorted : List BlkMeta
  blockQueue : ℕ → List ℕ
  tenantReq : ℕ → TenantReqs
  toNotify : List ℕ
  nReady : ℕ → ℕ

namespace Handle

/-- The state after `handle_init`. -/
def init : Handle where
  blocksSorted := (List.range nBlocks).foldl
    (fun blocks i => SortedSet.insert BlkMeta.cmp ⟨i, initTs⟩ blocks) []
  blockQueue _ := []
  tenantReq _ := ⟨false, 0⟩
  toNotify := []
  nReady _ := 0

variable (h : Handle)

/-- `to_notify.insert(t)`. -/
def notify (t : ℕ) : Handle :=
  { h with
    toNotify := h.toNotify.insert t
    nReady := Function.update h.nReady t (h.nReady t + 1) }

def setWaiting (t n : ℕ) : Handle :=
  { h with tenantReq := Function.update h.tenantReq t { h.tenantReq t with nWaiting := n } }

def setQueue (b : ℕ) (q : List ℕ) : Handle :=
  { h with blockQueue := Function.update h.blockQueue b q }

/-- The position in `blocks_sorted` that `handle_alloc` takes: the last block that is estimated to
be free at the start, or the first of all. -/
def findBlock (myStartTs : ℕ) : ℕ :=
  let it := SortedSet.upperBound BlkMeta.cmp ⟨0, myStartTs⟩ h.blocksSorted
  if it ≠ 0 then it - 1 else it

/-- The new estimate for a block. -/
def newEstimate (found : BlkMeta) (myStartTs myFinishTs : ℕ) : BlkMeta :=
  { found with estFinishTs :=
      (myFinishTs + if found.estFinishTs ≥ myStartTs then found.estFinishTs - myStartTs
        else 0) % 2 ^ 64 }

/-- A tenant makes a request. -/
def start (tenantId : ℕ) : Handle :=
  { h with
    tenantReq := Function.update h.tenantReq tenantId { h.tenantReq tenantId with started := true }
    nReady := Function.update h.nReady tenantId 0 }

/-- A tenant joins the queue of a block. -/
def enqueue (tenantId b : ℕ) : Handle :=
  let h := if h.blockQueue b ≠ [] then h.setWaiting tenantId 1 else h.notify tenantId
  h.setQueue b (h.blockQueue b ++ [tenantId])

/-- `handle_alloc` at the time `now`: the block and the state. -/
def handleAlloc (tenantId startDelay duration now : ℕ) : Option (ℕ × Handle) :=
  if tenantId ≠ noTenant ∧ tenantId < nMaxTenants ∧ h.blocksSorted.length = nBlocks then
    let h := h.start tenantId
    let myStartTs := (now + startDelay) % 2 ^ 64
    let myFinishTs := (now + startDelay + duration) % 2 ^ 64
    let it := h.findBlock myStartTs
    match h.blocksSorted[it]? with
    | none => none
    | some found =>
      if (h.tenantReq tenantId).nWaiting = 0 then
        some (found.blkId, { h.enqueue tenantId found.blkId with
          blocksSorted := SortedSet.insert BlkMeta.cmp (newEstimate found myStartTs myFinishTs)
            (h.blocksSorted.eraseIdx it) })
      else none
  else none

/-- The tenant that comes to the front of a queue has one less to wait for. -/
def promote (next : ℕ) : Handle :=
  let h := h.setWaiting next (((h.tenantReq next).nWaiting + 2 ^ 64 - 1) % 2 ^ 64)
  if (h.tenantReq next).nWaiting = 0 then h.notify next else h

/-- `handle_free`. -/
def handleFree (tenantId block : ℕ) : Option Handle :=
  if tenantId ≠ noTenant ∧ block < nBlocks then
    match h.blockQueue block with
    | [] => none
    | t :: q =>
      if t = tenantId then
        let h := h.setQueue block q
        match q with
        | [] => some h
        | next :: _ => some (h.promote next)
      else none
  else none

/-- `get_ready().erase(t)`. -/
def eraseReady (t : ℕ) : Handle := { h with toNotify := h.toNotify.erase t }

end Handle

/-! ### Tenants -/

/-- The handle with the tenants that use it: `block` is the block a tenant was given and has not
freed. -/
structure Tenants where
  handle : Handle
  block : ℕ → Option ℕ

namespace Tenants

def init : Tenants := ⟨Handle.init, fun _ => none⟩

variable (s : Tenants)

/-- A tenant may ask for a block when it has none. -/
def MayAlloc (t : ℕ) : Prop := t ≠ noTenant ∧ t < nMaxTenants ∧ s.block t = none

/-- A tenant may free the block it was given after it was put in the ready set. -/
def MayFree (t b : ℕ) : Prop := s.block t = some b ∧ 1 ≤ s.handle.nReady t

instance (t : ℕ) : Decidable (s.MayAlloc t) := inferInstanceAs (Decidable (_ ∧ _ ∧ _))
instance (t b : ℕ) : Decidable (s.MayFree t b) := inferInstanceAs (Decidable (_ ∧ _))

/-- The calls of the tenants, and what the caller of `get_ready` does with the set. -/
inductive Action
  | alloc (t startDelay duration now : ℕ)
  | free (t b : ℕ)
  | eraseReady (t : ℕ)
  deriving DecidableEq, Repr

/-- One call. -/
def step : Action → Option Tenants
  | .alloc t startDelay duration now =>
    if s.MayAlloc t then
      (s.handle.handleAlloc t startDelay duration now).map fun r =>
        ⟨r.2, Function.update s.block t (some r.1)⟩
    else none
  | .free t b =>
    if s.MayFree t b then
      (s.handle.handleFree t b).map fun h => ⟨h, Function.update s.block t none⟩
    else none
  | .eraseReady t => some { s with handle := s.handle.eraseReady t }

end Tenants

end P4db
