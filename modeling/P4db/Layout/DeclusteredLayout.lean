import Mathlib.Data.List.Sort
import P4db.Algorithm.LeastLoaded
import P4db.Algorithm.UnorderedMap
import P4db.Defs

/-!
# The declustered layout

`layout/declustered_layout.hpp` and `.cpp`: the constructor sorts the key distribution by heat and
hands out register slots greedily, each key to the register array of least accumulated weight;
`getLocation` answers whether a key is hot and where it lives in the allocated block, and
`revLookup` is the way back from a slot to its key.

The maps are partial functions.  `getLocation` also returns the layout it leaves behind, because
`operator[]` of an `unordered_map` inserts a value-initialised entry when the key is missing.
-/

namespace P4db

open UnorderedMap

/-! ### Locations -/

/-- `TupleLocation`: a register array (8 bits), a slot of it (16 bits), the key's frequency and its
lock bit (8 bits). -/
structure TupleLocation where
  regArrayId : ℕ
  regArrayIdx : ℕ
  distFreq : ℕ
  lockPos : ℕ
  deriving DecidableEq, Repr

namespace TupleLocation

/-- What `unordered_map::operator[]` inserts for a missing key. -/
def zero : TupleLocation := ⟨0, 0, 0, 0⟩

instance : Inhabited TupleLocation := ⟨zero⟩

/-- `TupleLocation::total_order_gt`. -/
def totalOrderGt (distFreq₁ : ℕ) (k₁ : DbKey) (distFreq₂ : ℕ) (k₂ : DbKey) : Bool :=
  if distFreq₁ ≠ distFreq₂ then distFreq₁ < distFreq₂ else k₁ < k₂

end TupleLocation

/-! ### The constructor -/

/-- `DeclusteredLayout::NO_LOCK`. -/
def noLock : ℕ := 255
/-- `NO_BLOCK`. -/
def noBlock : ℕ := 2 ^ 32 - 1

/-- The comparator handed to `std::sort`. -/
def hotterFirst (pr₁ pr₂ : DbKey × ℕ) : Bool :=
  !TupleLocation.totalOrderGt pr₁.2 pr₁.1 pr₂.2 pr₂.1

/-- `std::sort` with `hotterFirst`. -/
def sortByHeat (idFreq : List (DbKey × ℕ)) : List (DbKey × ℕ) :=
  idFreq.insertionSort fun a b => hotterFirst a b = true

/-- The local arrays of the constructor and the two maps it fills. -/
structure Placement where
  idxToAlloc : ℕ → ℕ
  weight : ℕ → ℕ
  lockWeight : ℕ → ℕ
  virtMap : DbKey → Option TupleLocation
  revByReg : ℕ → ℕ → Option DbKey

namespace Placement

/-- The state before the loop. -/
def init : Placement :=
  ⟨fun _ => 0, fun _ => 0, fun _ => 0, empty, fun _ => empty⟩

/-- The register array the next key goes to. -/
def rLow (p : Placement) : ℕ := lowest nRegs p.weight

/-- The location the loop body computes: the slot counter is narrowed to 16 bits, and a key that
ends up in slot 0 gets no lock. -/
def loc (p : Placement) (pr : DbKey × ℕ) : TupleLocation :=
  let idx := p.idxToAlloc p.rLow % 2 ^ 16
  ⟨p.rLow % 2 ^ 8, idx, pr.2, if idx ≠ 0 then lowest nSwLocks p.lockWeight % 2 ^ 8 else noLock⟩

/-- One iteration of the loop over the sorted distribution. -/
def place (p : Placement) (pr : DbKey × ℕ) : Placement :=
  let loc := p.loc pr
  let lkLow := lowest nSwLocks p.lockWeight
  { idxToAlloc := Function.update p.idxToAlloc p.rLow (p.idxToAlloc p.rLow + 1)
    weight := Function.update p.weight p.rLow ((p.weight p.rLow + pr.2) % 2 ^ 64)
    lockWeight :=
      if loc.regArrayIdx ≠ 0 then
        Function.update p.lockWeight lkLow ((p.lockWeight lkLow + pr.2) % 2 ^ 64)
      else p.lockWeight
    virtMap := emplace p.virtMap pr.1 loc
    revByReg := Function.update p.revByReg loc.regArrayId
      (emplace (p.revByReg loc.regArrayId) loc.regArrayIdx pr.1) }

end Placement

/-- `DeclusteredLayout`. -/
structure DeclusteredLayout where
  blockNum : ℕ
  virtMap : DbKey → Option TupleLocation
  revByReg : ℕ → ℕ → Option DbKey
  idFreq : List (DbKey × ℕ)

namespace DeclusteredLayout

/-- The constructor after `std::sort` has put the distribution in the order `sorted`.  The member
`id_freq` is the unsorted copy: the parameter of the same name is what gets sorted.  The last line
prints `id_freq[N_ACCEL_KEYS]`, which is out of bounds for a distribution of at most `N_ACCEL_KEYS`
keys; that read is not modelled. -/
def ofSorted (sorted idFreq : List (DbKey × ℕ)) : DeclusteredLayout :=
  let p := sorted.foldl Placement.place Placement.init
  ⟨noBlock, p.virtMap, p.revByReg, idFreq⟩

/-- The constructor. -/
def ofIdFreq (idFreq : List (DbKey × ℕ)) : DeclusteredLayout :=
  ofSorted (sortByHeat idFreq) idFreq

/-- `update_alloc` stores the block it was given. -/
def withBlock (l : DeclusteredLayout) (blockNum : ℕ) : DeclusteredLayout :=
  { l with blockNum := blockNum }

/-! ### Lookups -/

/-- `get_location`: the answer, and the layout with the entry that `virt_map[k]` may have
inserted. -/
def getLocation (l : DeclusteredLayout) (k : DbKey) :
    (Bool × TupleLocation) × DeclusteredLayout :=
  let tl := (l.virtMap k).getD TupleLocation.zero
  ((decide (tl.regArrayIdx < slotsPerSchedBlock),
    { tl with regArrayIdx := (slotsPerSchedBlock * l.blockNum + tl.regArrayIdx) % 2 ^ 16 }),
   { l with virtMap := emplace l.virtMap k TupleLocation.zero })

/-- `rev_lookup`: the subtraction is on `size_t`. -/
def revLookup (l : DeclusteredLayout) (regId regIdx : ℕ) : Option DbKey :=
  let idx := (regIdx + 2 ^ 64 - slotsPerSchedBlock * l.blockNum % 2 ^ 64) % 2 ^ 64
  l.revByReg regId idx

/-- Whether a key is reported hot. -/
def isHot (l : DeclusteredLayout) (k : DbKey) : Bool := (l.getLocation k).1.1

/-- The location reported for a key. -/
def location (l : DeclusteredLayout) (k : DbKey) : TupleLocation := (l.getLocation k).1.2

/-- A sequence of `get_location` calls: the queried keys with their answers, oldest first, and the
layout left behind. -/
def getLocations (l : DeclusteredLayout) :
    List DbKey → List (DbKey × Bool × TupleLocation) × DeclusteredLayout
  | [] => ([], l)
  | k :: ks =>
    let r := l.getLocation k
    let rest := getLocations r.2 ks
    ((k, r.1) :: rest.1, rest.2)

/-- The layouts of a run: the constructor, for any order that `std::sort` leaves, then blocks and
lookups. -/
inductive Reachable : DeclusteredLayout → Prop
  | ofSorted {sorted idFreq : List (DbKey × ℕ)} (h : sorted.Perm idFreq) :
    Reachable (ofSorted sorted idFreq)
  | withBlock {l : DeclusteredLayout} (blockNum : ℕ) (h : Reachable l) :
    Reachable (l.withBlock blockNum)
  | getLocation {l : DeclusteredLayout} (k : DbKey) (h : Reachable l) :
    Reachable (l.getLocation k).2

end DeclusteredLayout

end P4db
