import Mathlib.Logic.Function.Basic
import P4db.Algorithm.BitStream
import P4db.Defs

/-!
# The register pipeline of the switch

`new_p4db.p4`: the parser takes the network header, compares four words of identification and then
extracts `reg_instr_map_t`; the ingress control runs one action on each of the 72 register arrays,
which returns the addressed cell in the data field and overwrites the cell when the top bit of the
instruction is set.  A packet goes through the control as a whole before the next one.

The fields of a header follow each other in the packet, so the position of a field is the sum of
the widths declared before it.  Register actions outside the declared size have no defined result
(`none`), and neither has the control on a packet whose instructions were not parsed.
-/

namespace P4db.NewP4db

/-- `Register<bit<32>, bit<16>>(32768, _)`. -/
def regSize : ℕ := 32768

/-- The contents of the register arrays. -/
abbrev RegFile := ℕ → ℕ → BitVec 32

/-! ### Headers -/

/-- The declared width of `i0` to `i71`. -/
def iWidth (r : ℕ) : ℕ := if r < 20 then 16 else 8

/-- `network_t`. -/
structure Network where
  dstAddr : BitVec 48
  srcAddr : BitVec 48
  etherType : BitVec 16
  ipv4UdpFields : BitVec 224

/-- `reg_instr_map_t`. -/
structure RegInstrMap where
  offset : BitVec 16
  i : (r : ℕ) → BitVec (iWidth r)
  d : ℕ → BitVec 32

/-- `header_t` after parsing; the words of identification are gone, the instructions are present
when all four matched. -/
structure Header where
  network : Network
  instrs : Option RegInstrMap

/-- Where `network_t`, the four `uid_t` and `reg_instr_map_t` start, in bits. -/
def uidOff (n : ℕ) : ℕ := 48 + 48 + 16 + 224 + 32 * n

/-- Where the fields `i_r`, `d_r` start: behind `offset` and all earlier pairs. -/
def instrOff (r : ℕ) : ℕ :=
  ((List.range r).map fun k => iWidth k + 32).foldl (· + ·) (uidOff 4 + 16)

/-- The state `parse_reg_instrs`. -/
def parseRegInstrs (pkt : Buf) : RegInstrMap where
  offset := pkt.extract (uidOff 4) 16
  i r := pkt.extract (instrOff r) (iWidth r)
  d r := pkt.extract (instrOff r + iWidth r) 32

/-- `SwitchIngressParser`. -/
def parse (pkt : Buf) : Header where
  network := ⟨pkt.extract 0 48, pkt.extract 48 48, pkt.extract 96 16, pkt.extract 112 224⟩
  instrs :=
    if pkt.extract (uidOff 0) 32 = 0xbe87ef7e#32 ∧ pkt.extract (uidOff 1) 32 = 0x613c4b33#32 ∧
        pkt.extract (uidOff 2) 32 = 0x82eb9066#32 ∧ pkt.extract (uidOff 3) 32 = 0x3a403dae#32 then
      some (parseRegInstrs pkt)
    else none

/-! ### The control -/

/-- `offset ++ i_r[6:0]`, with `offset = (bit<9>) (hdr.instrs.offset >> 7)`. -/
def RegInstrMap.index (m : RegInstrMap) (r : ℕ) : BitVec 16 :=
  ((m.offset >>> 7).setWidth 9 ++ (m.i r).extractLsb' 0 7 : BitVec (9 + 7))

/-- `hdr.instrs.d_r = reg_r_access.execute(offset ++ hdr.instrs.i_r[6:0])`. -/
def execReg (st : RegFile × RegInstrMap) (r : ℕ) : Option (RegFile × RegInstrMap) :=
  let (regs, m) := st
  let index := (m.index r).toNat
  if index < regSize then
    let rv := regs r index
    let regs := if (m.i r).getLsbD 7 then
      Function.update regs r (Function.update (regs r) index (m.d r)) else regs
    some (regs, { m with d := Function.update m.d r rv })
  else none

/-- The table `l2fwd`: the egress port, and the network header with the addresses swapped; `none` is
the default action `drop`. -/
def l2fwd (n : Network) : Option (ℕ × Network) :=
  if n.dstAddr = 0x222222222222#48 then
    some (2, { n with dstAddr := n.srcAddr, srcAddr := n.dstAddr })
  else none

/-- What the switch does with one packet: the new register contents, the instruction header with the
results, and the forwarding decision. -/
structure Result where
  regs : RegFile
  instrs : RegInstrMap
  egress : Option (ℕ × Network)

/-- `SwitchIngress` on a parsed packet. -/
def ingress (regs : RegFile) (hdr : Header) : Option Result := do
  let m ← hdr.instrs
  let (regs, m) ← (List.range nRegs).foldlM execReg (regs, m)
  some ⟨regs, m, l2fwd hdr.network⟩

/-- One packet through parser and control. -/
def process (regs : RegFile) (pkt : Buf) : Option Result := ingress regs (parse pkt)

/-- A sequence of packets: the registers at the end, and what each packet got. -/
def processAll : RegFile → List Buf → Option (RegFile × List Result)
  | regs, [] => some (regs, [])
  | regs, pkt :: pkts => do
    let res ← process regs pkt
    let (regs', rest) ← processAll res.regs pkts
    some (regs', res :: rest)

end P4db.NewP4db
