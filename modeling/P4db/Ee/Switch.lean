import P4db.Algorithm.BitStream
import P4db.Ee.Args

/-!
# Packets of one pass

`SwitchInfo::make_txn` and `process_reply_txn` of `ee/switch.cpp` with `USE_1PASS_PKTS`: the network
header, the offset of the block, and one instruction for every register array.  `pass1_pkt_t` is a
packed structure, so every field has a fixed byte position; the bytes the encoder does not assign
keep what the buffer held.
-/

namespace P4db.SwitchInfo

/-- `N_OFFSET_BITS`. -/
def nOffsetBits : ℕ := 7
/-- `N_INSTRS_PADDED`. -/
def nInstrsPadded : ℕ := 20
/-- `P4DB_ETHER_TYPE`. -/
def p4dbEtherType : BitVec 16 := 0x88b5#16
/-- `UID_HDR`. -/
def uidHdr : BitVec 128 := 0xBE87EF7E613C4B3382EB90663A403DAE#128

/-! ### Positions in `pass1_pkt_t` -/

/-- `net_hdr.uid`, after two MAC addresses, the ether type and 28 unused bytes. -/
def uidPos : ℕ := 6 + 6 + 2 + 28
/-- `base_offset`. -/
def baseOffsetPos : ℕ := uidPos + 16
/-- `padded_instrs[i]`: a padding byte, the mask and four bytes of data. -/
def paddedInstrPos (i : ℕ) : ℕ := baseOffsetPos + 2 + 6 * i
/-- `normal_instrs[i]`: the mask and four bytes of data. -/
def normalInstrPos (i : ℕ) : ℕ := paddedInstrPos nInstrsPadded + 5 * i

/-- The `pass1_normal_instr_t` of a register array. -/
def instrPos (regArrayId : ℕ) : ℕ :=
  if regArrayId < nInstrsPadded then paddedInstrPos regArrayId + 1
  else normalInstrPos (regArrayId - nInstrsPadded)

/-! ### Encoding -/

/-- The MAC addresses of the configuration: the switch and this node. -/
structure Macs where
  switchMac : BitVec 48
  nodeMac : BitVec 48
  deriving DecidableEq, Repr

/-- `fill_network_hdr`. -/
def fillNetworkHdr (conf : Macs) (pkt : Buf) : Buf :=
  (((pkt.storeBE 0 6 conf.switchMac).storeBE 6 6 conf.nodeMac).storeBE 12 2
    p4dbEtherType).storeBE uidPos 16 uidHdr

/-- `instr->idx_perm_mask = mask`. -/
def storeMask (pkt : Buf) (regArrayId : ℕ) (mask : BitVec 8) : Buf :=
  pkt.storeBE (instrPos regArrayId) 1 mask

/-- `instr->data__be = htonl(value)`. -/
def storeData (pkt : Buf) (regArrayId : ℕ) (value : BitVec 32) : Buf :=
  pkt.storeBE (instrPos regArrayId + 1) 4 value

/-- The masks of all register arrays are cleared, the padded ones first. -/
def clearMasks (pkt : Buf) : Buf :=
  (List.range' nInstrsPadded (nRegs - nInstrsPadded)).foldl (fun pkt i => storeMask pkt i 0#8)
    ((List.range nInstrsPadded).foldl (fun pkt i => storeMask pkt i 0#8) pkt)

/-- The bits of the block's first slot that the packet carries once for all instructions. -/
def baseOffset (blockNum : ℕ) : ℕ :=
  let offset := blockNum * slotsPerSchedBlock
  offset - offset % 2 ^ nOffsetBits

/-- One iteration of the loop over the hot operations; the subtraction is on `size_t`, and `none` is
the failed assertion on the index. -/
def fillInstr (base : ℕ) (pkt : Buf) (pr : HotOp) : Option Buf :=
  let idx := (pr.2.regArrayIdx + 2 ^ 64 - base) % 2 ^ 64
  if idx &&& (2 ^ nOffsetBits - 1) = idx then
    let isWriteBits := if pr.1.mode = .write then 2 ^ 7 else 0
    some (storeData (storeMask pkt pr.2.regArrayId (BitVec.ofNat 8 (isWriteBits ||| idx)))
      pr.2.regArrayId pr.1.value)
  else none

/-- `make_txn`; `none` is a failed assertion. -/
def makeTxn (conf : Macs) (blockNum : ℕ) (txn : Txn) (commPkt : Buf) : Option Buf :=
  let base := baseOffset blockNum
  if txn.doAccel = true ∧ base < 2 ^ 16 - 1 then
    let pkt := (fillNetworkHdr conf commPkt).storeBE baseOffsetPos 2 (BitVec.ofNat 16 base)
    txn.hot.foldlM (fillInstr base) (clearMasks pkt)
  else none

/-! ### Replies -/

/-- The instruction that `process_reply_txn` reads for a register array: `normal_instrs` is indexed
with the number of the array itself. -/
def replyInstrPos (regArrayId : ℕ) : ℕ :=
  if regArrayId < nInstrsPadded then paddedInstrPos regArrayId + 1 else normalInstrPos regArrayId

/-- `ntohl(instr->data__be)`. -/
def replyData (inPkt : Buf) (regArrayId : ℕ) : BitVec 32 :=
  inPkt.extract (8 * (replyInstrPos regArrayId + 1)) 32

/-- `table->lockless_access(k).value = v` on a table of `size` rows; `none` is the failed
assertion. -/
def setValue (size : ℕ) (table : DbKey → BitVec 32) (k : DbKey) (v : BitVec 32) :
    Option (DbKey → BitVec 32) :=
  if k < size then some (Function.update table k v) else none

/-- `process_reply_txn`. -/
def processReplyTxn (size : ℕ) (txn : Txn) (inPkt : Buf) (write : Bool)
    (table : DbKey → BitVec 32) : Option (DbKey → BitVec 32) :=
  txn.hot.foldlM (fun table pr =>
    if write then setValue size table pr.1.id (replyData inPkt pr.2.regArrayId)
      else some table) table

/-- The instructions that `process_reply_txn` reads are in the packet. -/
def ReplyInRange (txn : Txn) : Prop :=
  ∀ pr ∈ txn.hot, replyInstrPos pr.2.regArrayId + 5 ≤ hotTxnPktBytes

end P4db.SwitchInfo
