import P4db.Switch.MyP4db

/-!
# The two-pass program on bytes

The parser and the deparser of `switch_src/my_p4db.p4` on the bytes of a packet from `lock_info` on.
A header is the concatenation of its fields, most significant byte first.  The parser looks at the
type byte of the next instruction to decide what it extracts; of the instruction behind the stop bit
it takes the type byte only, and the rest of that instruction and all that follows stays in the
packet.  A packet that is too short for what is extracted, or that has more skipped instructions
than `reg_skip` can hold, is rejected.

`traverse` takes the bytes through parser, control and deparser.  `travel` follows one packet
through its traversals, while other packets change the switch, and `execute` does so when there are
no others.
-/

namespace P4db.MyP4db

abbrev Byte := BitVec 8

/-! ### Headers -/

def bytes16 (v : BitVec 16) : List Byte := [v.extractLsb' 8 8, v.extractLsb' 0 8]

def bytes32 (v : BitVec 32) : List Byte :=
  [v.extractLsb' 24 8, v.extractLsb' 16 8, v.extractLsb' 8 8, v.extractLsb' 0 8]

/-- `lock_info_t` on the wire. -/
def LockInfo.bytes (l : LockInfo) : List Byte :=
  bytes32 l.locksCheck ++ bytes32 l.locksAcquire ++ bytes32 l.locksUndo ++
    [l.isSecondPass, l.nFailed]

/-- `reg_instr_t` on the wire, behind its type. -/
def RegInstr.body (x : RegInstr) : List Byte := x.op :: (bytes16 x.idx ++ bytes32 x.data)

/-- `reg_instr_t` on the wire. -/
def RegInstr.bytes (x : RegInstr) : List Byte := x.type :: x.body

namespace Wire

/-- `pkt.extract(hdr.lock_info)`. -/
def extractLockInfo : List Byte → Option (LockInfo × List Byte)
  | c₃ :: c₂ :: c₁ :: c₀ :: a₃ :: a₂ :: a₁ :: a₀ :: u₃ :: u₂ :: u₁ :: u₀ :: second ::
      failed :: rest =>
    some (⟨c₃ ++ c₂ ++ c₁ ++ c₀, a₃ ++ a₂ ++ a₁ ++ a₀, u₃ ++ u₂ ++ u₁ ++ u₀, second, failed⟩, rest)
  | _ => none

/-- `pkt.extract` of a `reg_instr_t`. -/
def extractInstr : List Byte → Option (RegInstr × List Byte)
  | type :: op :: i₁ :: i₀ :: d₃ :: d₂ :: d₁ :: d₀ :: rest =>
    some (⟨type, op, i₁ ++ i₀, d₃ ++ d₂ ++ d₁ ++ d₀⟩, rest)
  | _ => none

/-- `header_t` from `lock_info` on, after parsing, and the bytes that were not parsed. -/
structure Header where
  lockInfo : LockInfo
  regSkip : List RegInstr
  reg : ℕ → Option RegInstr
  nextType : Byte
  payload : List Byte

/-! ### The parser -/

/-- The states `parse_skips` and `parse_reg_skip`, with room for `n` more headers in `reg_skip`. -/
def parseSkips (n : ℕ) (pkt : List Byte) : Option (List RegInstr × List Byte) :=
  if pkt.head? = some skip then
    match n with
    | 0 => none
    | n + 1 => do
      let (x, pkt) ← extractInstr pkt
      let (xs, pkt) ← parseSkips n pkt
      some (x :: xs, pkt)
  else some ([], pkt)

/-- The states `parse_regs`, `parse_reg_i` and `parse_next_type`. -/
def parseRegs :
    List Byte → (ℕ → Option RegInstr) → Option ((ℕ → Option RegInstr) × Byte × List Byte)
  | [], _ => none
  | type :: pkt, reg =>
    if hasStop type then some (reg, type, pkt)
    else if type ≠ skip ∧ type.toNat ≤ numRegs then
      match pkt with
      | op :: i₁ :: i₀ :: d₃ :: d₂ :: d₁ :: d₀ :: pkt =>
        parseRegs pkt (Function.update reg (type.toNat - 1)
          (some ⟨type, op, i₁ ++ i₀, d₃ ++ d₂ ++ d₁ ++ d₀⟩))
      | _ => none
    else none

/-- `SwitchIngressParser` from `parse_lock_info` on. -/
def parse (pkt : List Byte) : Option Header := do
  let (lockInfo, pkt) ← extractLockInfo pkt
  let (regSkip, pkt) ← parseSkips maxSkips pkt
  let (reg, nextType, payload) ← parseRegs pkt fun _ => none
  some ⟨lockInfo, regSkip, reg, nextType, payload⟩

/-! ### Deparser and control -/

/-- `SwitchIngressDeparser`: the valid headers in the order of `header_t`, then the bytes that were
not parsed. -/
def Header.emit (hdr : Header) : List Byte :=
  hdr.lockInfo.bytes ++ hdr.regSkip.flatMap RegInstr.bytes ++
    ((List.range numRegs).filterMap hdr.reg).flatMap RegInstr.bytes ++ hdr.nextType :: hdr.payload

/-- What the control sees. -/
def Header.toControl (hdr : Header) : MyP4db.Header where
  dstAddr := 0
  srcAddr := 0
  lockInfo := hdr.lockInfo
  regSkip := hdr.regSkip
  reg := hdr.reg
  nextType := hdr.nextType
  rest := []
  last := 0

/-- What the control leaves in the headers. -/
def Header.ofControl (hdr : Header) (res : MyP4db.Header) : Header :=
  { hdr with
    lockInfo := res.lockInfo, regSkip := res.regSkip, reg := res.reg, nextType := res.nextType }

/-- A traversal of a packet. -/
structure Result where
  sw : Switch
  pkt : List Byte
  verdict : Verdict
  log : List Access

/-- The packet goes through the pipeline; `none` if it is rejected. -/
def traverse (sw : Switch) (id : ℕ) (pkt : List Byte) : Option Result := do
  let hdr ← parse pkt
  let res := ingress sw id hdr.toControl
  some ⟨res.sw, (hdr.ofControl res.hdr).emit, res.verdict, res.log⟩

/-- The traversals of one packet, until it leaves the switch or the list ends.  The list has the
states of the switch that the packet finds, since other packets may change it in between. -/
def travel (id : ℕ) : List Switch → List Byte → Option (List (Switch × Result))
  | [], _ => some []
  | sw :: sws, pkt => do
    let res ← traverse sw id pkt
    if res.verdict.doRecirc then
      let rest ← travel id sws res.pkt
      some ((sw, res) :: rest)
    else some [(sw, res)]

/-- The packet is alone in the switch and leaves it after at most `n` traversals; the switch at the
end. -/
def execute (id : ℕ) : ℕ → Switch → List Byte → Option Switch
  | 0, _, _ => none
  | n + 1, sw, pkt => do
    let res ← traverse sw id pkt
    if res.verdict.doRecirc then execute id n res.sw res.pkt else some res.sw

end Wire

end P4db.MyP4db
