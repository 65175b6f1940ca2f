import P4db.Algorithm.Fill
import P4db.FastLayout.Sim
import P4db.Switch.MyP4dbWire

/-!
# The packet trace

`txn_to_sw_fmt` of `mine/fast_layout/prod_trace.cpp`: a transaction of the simulation as a packet
for the switch. The operations of all passes stand one after the other in `reg_instrs`.  After each
pass the type of the next instruction is set to the stop bit, which an instruction of the next pass
keeps.

An access beyond the end of `reg_instrs` is a fault.
-/

namespace P4db.FastLayout

open MyP4db (Byte RegInstr bytes16 bytes32)

/-- `STOP`. -/
def stop : Byte := 0x80

/-- `packet_t`, with its numbers in the order of the host. -/
structure Packet where
  locksCheck : BitVec 32
  locksAcquire : BitVec 32
  locksUndo : BitVec 32
  isSecondPass : Byte
  nFailed : Byte
  regInstrs : List RegInstr

/-- The packed structure, with its numbers in network order. -/
def Packet.bytes (pkt : Packet) : List Byte :=
  bytes32 pkt.locksCheck ++ bytes32 pkt.locksAcquire ++ bytes32 pkt.locksUndo ++
    [pkt.isSecondPass, pkt.nFailed] ++
    pkt.regInstrs.flatMap fun x => [x.type, x.op] ++ bytes16 x.idx ++ bytes32 x.data

/-- An instruction after the `memset`. -/
def zeroInstr : RegInstr := ⟨0, 0, 0, 0⟩

/-- The operations of a pass in the order of the loops: register and slot. -/
def SwPassTxn.ops (pass : SwPassTxn) : List (ℕ × ℕ) :=
  (List.range nStages).flatMap fun s => (pass.opsAt s).map fun o => (s * regsPerStage + o.1, o.2)

/-- The assignments to an instruction, which keeps a stop bit. -/
def setInstr (txnId : ℕ) (instr : RegInstr) (op : ℕ × ℕ) : RegInstr where
  type := (instr.type &&& stop) ||| BitVec.ofNat 8 (op.1 + 1)
  op := 1
  idx := BitVec.ofNat 16 op.2
  data := BitVec.ofNat 32 txnId

/-- The body of the loop over the operations; the state is `reg_instrs` and `reg_instr_p`. -/
def fillInstr (txnId : ℕ) : List RegInstr × ℕ → ℕ × ℕ → Option (List RegInstr × ℕ) :=
  Fill.put (setInstr txnId)

/-- `pkt->reg_instrs[reg_instr_p].type__be = STOP`. -/
def endPass (st : List RegInstr × ℕ) : Option (List RegInstr × ℕ) := do
  let instrs ← Fill.modify (fun instr => { instr with type := stop }) st.1 st.2
  some (instrs, st.2)

/-- The body of the loop over the passes. -/
def fillPass (txnId : ℕ) (st : List RegInstr × ℕ) (pass : SwPassTxn) : Option (List RegInstr × ℕ) :=
  do
  let st ← pass.ops.foldlM (fillInstr txnId) st
  endPass st

/-- `txn_to_sw_fmt`. -/
def txnToSwFmt (txn : SwTxn) (txnId : ℕ) : Option (List Byte) := do
  let (instrs, _) ← txn.passes.foldlM (fillPass txnId)
    (List.replicate (1 + nMaxHotOps) zeroInstr, 0)
  some (Packet.bytes ⟨txn.locksCheck, txn.locksWanted, 0, 0, 0, instrs⟩)

end P4db.FastLayout
