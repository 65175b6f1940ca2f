import P4db.Algorithm.Conflict
import Mathlib.Data.Nat.Notation

/-!
# The two-pass program of the switch

`switch_src/my_p4db.p4`.  A packet carries instructions for the register arrays in one or two
groups, which are for its first and its second pass; the type of the first instruction of the second
group has the stop bit, and so has the type byte after the last instruction.  One register holds 32
lock bits.  A packet that finds none of the bits in `locks_check` set does its first pass, and if it
wants locks it keeps them until its second pass.  Otherwise it keeps the locks that it could get
until its next traversal, where it gives them back and goes on to try again, or gives up.

Indices are 16 bits wide; an index beyond the size of an array is modelled as a cell of its own.
The four words of identification are left out, so that `hdr.lock_info` is always valid.
-/

namespace P4db.MyP4db

/-! ### Packets -/

/-- `InstrType_t.SKIP`. -/
def skip : BitVec 8 := 0x00
/-- `InstrType_t.NEG_STOP`. -/
def negStop : BitVec 8 := 0x7f
/-- The number of register arrays: `InstrType_t.REG_i` is `i + 1` for `i` below. -/
def numRegs : ℕ := 40
/-- `OPCode_t.WRITE`. -/
def write : BitVec 8 := 0x01
/-- The size of the header stack `reg_skip`. -/
def maxSkips : ℕ := 7

/-- `lock_info_t`. -/
structure LockInfo where
  locksCheck : BitVec 32
  locksAcquire : BitVec 32
  locksUndo : BitVec 32
  isSecondPass : BitVec 8
  nFailed : BitVec 8
  deriving DecidableEq, Repr

/-- `reg_instr_t`. -/
structure RegInstr where
  type : BitVec 8
  op : BitVec 8
  idx : BitVec 16
  data : BitVec 32
  deriving DecidableEq, Repr

/-- The match `InstrType_t.STOP &&& InstrType_t.STOP` of the parser. -/
def hasStop (type : BitVec 8) : Bool := type.getLsbD 7

/-- A packet: `last` is the type byte after the instructions. -/
structure Packet where
  dstAddr : BitVec 48
  srcAddr : BitVec 48
  lockInfo : LockInfo
  instrs : List RegInstr
  last : BitVec 8
  deriving DecidableEq, Repr

/-- `header_t` after parsing, and the rest of the packet.  `nextType` is the type byte of the first
instruction in `rest`, or `last` if there is none. -/
structure Header where
  dstAddr : BitVec 48
  srcAddr : BitVec 48
  lockInfo : LockInfo
  regSkip : List RegInstr
  reg : ℕ → Option RegInstr
  nextType : BitVec 8
  rest : List RegInstr
  last : BitVec 8

/-- The states `parse_regs` and `parse_reg_i`; `none` if the packet is rejected. -/
def parseRegs (last : BitVec 8) : List RegInstr → (ℕ → Option RegInstr) →
    Option ((ℕ → Option RegInstr) × BitVec 8 × List RegInstr)
  | [], reg => if hasStop last then some (reg, last, []) else none
  | x :: l, reg =>
    if hasStop x.type then some (reg, x.type, x :: l)
    else if x.type ≠ skip ∧ x.type.toNat ≤ numRegs then
      parseRegs last l (Function.update reg (x.type.toNat - 1) (some x))
    else none

/-- `SwitchIngressParser`, from `parse_lock_info` on. -/
def parse (pkt : Packet) : Option Header :=
  let regSkip := pkt.instrs.takeWhile fun x => x.type = skip
  if regSkip.length ≤ maxSkips then
    (parseRegs pkt.last (pkt.instrs.dropWhile fun x => x.type = skip) fun _ => none).map
      fun (reg, nextType, rest) =>
        ⟨pkt.dstAddr, pkt.srcAddr, pkt.lockInfo, regSkip, reg, nextType, rest, pkt.last⟩
  else none

/-- `SwitchIngressDeparser`: the valid headers in the order of `header_t`, and the rest of the
packet. -/
def Header.emit (hdr : Header) : Packet where
  dstAddr := hdr.dstAddr
  srcAddr := hdr.srcAddr
  lockInfo := hdr.lockInfo
  instrs := hdr.regSkip ++ (List.range numRegs).filterMap hdr.reg ++
    match hdr.rest with
    | [] => []
    | x :: l => { x with type := hdr.nextType } :: l
  last := if hdr.rest = [] then hdr.nextType else hdr.last

/-! ### The control -/

/-- A cell of a register array. -/
abbrev Cell := ℕ × BitVec 16

/-- The registers of the switch. -/
structure Switch where
  myLock : BitVec 32
  reg : Cell → BitVec 32

/-- The accesses of packets, which are numbered, to the cells. -/
abbrev Access := Conflict.Access ℕ Cell (BitVec 32)

/-- `lock_action`: the new value of the register. -/
def lockAction (value : BitVec 32) (l : LockInfo) : BitVec 32 :=
  if l.locksUndo ≠ 0 then value - l.locksUndo else value ||| l.locksAcquire

/-- What becomes of a packet: `do_access` and `do_recirc`. -/
structure Verdict where
  doAccess : Bool
  doRecirc : Bool
  deriving DecidableEq, Repr

/-- The decision of the control, where `r` are the locks in `locks_check` that were set. -/
def decideLocks (r : BitVec 32) (hdr : Header) : Verdict × Header :=
  let l := hdr.lockInfo
  if l.locksUndo ≠ 0 then
    if l.isSecondPass = 1 then (⟨true, false⟩, hdr)
    else if l.nFailed < 8 then (⟨false, true⟩, { hdr with lockInfo := { l with locksUndo := 0 } })
    else (⟨false, false⟩, hdr)
  else
    let l := { l with locksUndo := ~~~r &&& l.locksAcquire }
    if r = 0 then
      let hdr := { hdr with nextType := hdr.nextType &&& negStop }
      if l.locksAcquire ≠ 0 then
        (⟨true, true⟩, { hdr with lockInfo := { l with isSecondPass := 1 } })
      else (⟨true, false⟩, { hdr with lockInfo := l })
    else (⟨false, true⟩, { hdr with lockInfo := { l with nFailed := l.nFailed + 1 } })

/-- `hdr.reg_i.data = reg_i_access.execute(hdr.reg_i.idx); hdr.reg_i.type = InstrType_t.SKIP;` for
packet `id`; the access is recorded. -/
def execReg (id : ℕ) (st : (Cell → BitVec 32) × (ℕ → Option RegInstr) × List Access) (i : ℕ) :
    (Cell → BitVec 32) × (ℕ → Option RegInstr) × List Access :=
  let (regs, reg, log) := st
  match reg i with
  | none => (regs, reg, log)
  | some x =>
    let rv := regs (i, x.idx)
    (if x.op = write then Function.update regs (i, x.idx) x.data else regs,
      Function.update reg i (some { x with data := rv, type := skip }),
      log ++ [⟨id, (i, x.idx), rv, if x.op = write then some x.data else none⟩])

/-- The accesses of packet `id` in one pass. -/
def access (id : ℕ) (regs : Cell → BitVec 32) (hdr : Header) :
    (Cell → BitVec 32) × Header × List Access :=
  let (regs, reg, log) := (List.range numRegs).foldl (execReg id) (regs, hdr.reg, [])
  (regs, { hdr with reg := reg }, log)

/-- The table `l2fwd`: the port of the reply, and the header with the addresses swapped; `none` is
the default action `drop`. -/
def l2fwd (hdr : Header) : Option (ℕ × Header) :=
  if hdr.dstAddr = 0x222222222222#48 then
    some (130, { hdr with dstAddr := hdr.srcAddr, srcAddr := hdr.dstAddr })
  else none

/-- What the control does with packet `id`. -/
structure Result where
  sw : Switch
  hdr : Header
  verdict : Verdict
  log : List Access

/-- `SwitchIngress.apply`, up to the forwarding of the packet. -/
def ingress (sw : Switch) (id : ℕ) (hdr : Header) : Result :=
  let r := sw.myLock &&& hdr.lockInfo.locksCheck
  let myLock := lockAction sw.myLock hdr.lockInfo
  let (verdict, hdr) := decideLocks r hdr
  let (regs, hdr, log) := if verdict.doAccess then access id sw.reg hdr else (sw.reg, hdr, [])
  ⟨⟨myLock, regs⟩, hdr, verdict, log⟩

/-! ### Circulating packets -/

/-- A packet in the switch. -/
structure Flight where
  id : ℕ
  pkt : Packet
  deriving DecidableEq, Repr

/-- The switch with the packets that circulate.  The other fields record what has happened: the
packets that entered, all accesses in order, the packets that succeeded in their first traversal in
order, those that were answered after an access, with what was sent, and those that were answered
without one. -/
structure State where
  sw : Switch
  circulating : List Flight
  entered : List Packet
  history : List Access
  order : List ℕ
  completed : List (ℕ × Option (ℕ × Packet))
  refused : List (ℕ × Option (ℕ × Packet))

namespace State

def init (regs : Cell → BitVec 32) : State := ⟨⟨0, regs⟩, [], [], [], [], [], []⟩

inductive Action
  | enter (pkt : Packet)
  | traverse (i : ℕ)
  deriving DecidableEq, Repr

/-- A packet as a node sends it. -/
def Fresh (pkt : Packet) : Prop :=
  pkt.lockInfo.locksUndo = 0 ∧ pkt.lockInfo.isSecondPass = 0 ∧
    pkt.lockInfo.locksAcquire &&& pkt.lockInfo.locksCheck = pkt.lockInfo.locksAcquire

instance (pkt : Packet) : Decidable (Fresh pkt) := inferInstanceAs (Decidable (_ ∧ _ ∧ _))

variable (s : State)

def enter (pkt : Packet) : Option State :=
  if Fresh pkt then
    some { s with
      circulating := ⟨s.entered.length, pkt⟩ :: s.circulating
      entered := s.entered ++ [pkt] }
  else none

/-- The packet at position `i` goes through the pipeline. -/
def traverse (i : ℕ) : Option State := do
  let f ← s.circulating[i]?
  let hdr ← parse f.pkt
  let res := ingress s.sw f.id hdr
  let others := s.circulating.eraseIdx i
  let s' := { s with
    sw := res.sw
    history := s.history ++ res.log
    -- the first traversal succeeded
    order := if res.verdict.doAccess && hdr.lockInfo.locksUndo = 0 then s.order ++ [f.id]
      else s.order }
  if res.verdict.doRecirc then
    some { s' with circulating := ⟨f.id, res.hdr.emit⟩ :: others }
  else
    let reply := (l2fwd res.hdr).map fun r => (r.1, r.2.emit)
    if res.verdict.doAccess then
      some { s' with circulating := others, completed := (f.id, reply) :: s.completed }
    else some { s' with circulating := others, refused := (f.id, reply) :: s.refused }

def step : Action → Option State
  | .enter pkt => s.enter pkt
  | .traverse i => s.traverse i

end State

end P4db.MyP4db
