import P4db.Algorithm.Fill
import P4db.Ee.Switch
import P4db.Switch.MyP4dbWire

/-!
# Packets of two passes

`SwitchInfo::make_txn` and `process_reply_txn` of `ee/switch.cpp` without `USE_1PASS_PKTS`: one
instruction for each hot operation, those of the first pass before those of the second, which starts
at a stop bit.  What the encoder does not assign keeps what the buffer held.  The network header
stands before this part of the packet.

An access beyond the end of `instrs` or of `hot_ops_pass2` is a fault.
-/

namespace P4db.SwitchInfo

open MyP4db (Byte RegInstr bytes16 bytes32)

/-- `MAX_HOT_OPS`. -/
def maxHotOps : ℕ := 8
/-- `STOP`. -/
def stop : Byte := 0x80

/-- The byte of an `AccessMode`. -/
def modeByte : AccessMode → Byte
  | .invalid => 0
  | .read => 1
  | .write => 2

/-- `generic_pkt_t` behind the network header, with its numbers in the order of the host. -/
structure GenericPkt where
  locksCheck : BitVec 32
  locksAcquire : BitVec 32
  locksUndo : BitVec 32
  isSecondPass : Byte
  nFailed : Byte
  instrs : List RegInstr

/-- The packed structure, with its numbers in network order. -/
def GenericPkt.bytes (pkt : GenericPkt) : List Byte :=
  bytes32 pkt.locksCheck ++ bytes32 pkt.locksAcquire ++ bytes32 pkt.locksUndo ++
    [pkt.isSecondPass, pkt.nFailed] ++
    pkt.instrs.flatMap fun x => [x.type, x.op] ++ bytes16 x.idx ++ bytes32 x.data

/-- The array `instrs` in the buffer where the packet is made. -/
abbrev InstrArray := { instrs : List RegInstr // instrs.length = 1 + maxHotOps }

/-- `fill_reg_instr`. -/
def fillRegInstr (_instr : RegInstr) (pr : HotOp) : RegInstr where
  type := BitVec.ofNat 8 (1 + pr.2.regArrayId)
  op := modeByte pr.1.mode
  idx := BitVec.ofNat 16 pr.2.regArrayIdx
  data := pr.1.value

/-- The instructions of `make_txn`. -/
def fillInstrs (maxPasses : ℕ) (txn : Txn) (instrs : List RegInstr) : Option (List RegInstr) := do
  let (instrs, p) ← txn.hot.foldlM (Fill.put fillRegInstr) (instrs, 0)
  if maxPasses > 1 then
    let off1 := p
    let (instrs, p) ← txn.hot2.foldlM (Fill.put fillRegInstr) (instrs, off1)
    let instrs ← Fill.modify (fun x => { x with type := x.type ||| stop }) instrs off1
    Fill.modify (fun x => { x with type := stop }) instrs p
  else Fill.modify (fun x => { x with type := stop }) instrs p

/-- `make_txn`; `none` is the failed assertion. -/
def makeTxnGeneric (maxPasses : ℕ) (txn : Txn) (commPkt : InstrArray) : Option GenericPkt :=
  if txn.doAccel = true then do
    let instrs ← fillInstrs maxPasses txn commPkt.val
    some ⟨txn.locksCheck, txn.locksAcquire, 0, 0, 0, instrs⟩
  else none

/-! ### Replies -/

/-- The body of both loops of `process_reply_txn`: an operation and the instruction with number
`i`. -/
def replyOp (size : ℕ) (pkt : GenericPkt) (write : Bool) (table : DbKey → BitVec 32) (pr : HotOp)
    (i : ℕ) :
    Option (DbKey → BitVec 32) := do
  let instr ← pkt.instrs[i]?
  if write then setValue size table pr.1.id instr.data else some table

/-- An entry of `hot_ops_pass2`. -/
def hotOpsPass2At (txn : Txn) (i : ℕ) : Option HotOp :=
  if i < maxOpsPass2Accel then some (txn.hotOpsPass2 i) else none

/-- `process_reply_txn`.  The second loop adds the offset of its instructions to the index of the
operation, too. -/
def processReplyTxnGeneric (size maxPasses : ℕ) (txn : Txn) (pkt : GenericPkt) (write : Bool)
    (table : DbKey → BitVec 32) : Option (DbKey → BitVec 32) := do
  let p := txn.hot.length
  let table ← (List.range p).foldlM
    (fun table p => replyOp size pkt write table (txn.hotOpsPass1 p) p) table
  if maxPasses > 1 then
    let off1 := p
    (List.range txn.hot2.length).foldlM (fun table p => do
      let pr ← hotOpsPass2At txn (off1 + p)
      replyOp size pkt write table pr (off1 + p)) table
  else some table

end P4db.SwitchInfo
