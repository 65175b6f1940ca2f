import P4db.Switch.MyP4dbWire
import Mathlib.Data.List.TakeWhile

/-!
# The program on bytes refines the program on instructions

* `extractInstr_bytes`, `extractLockInfo_bytes`: a header is read back from its bytes.
* `parse_bytes`: the parser on the bytes of a packet finds what the parser on its instructions
  finds.
* `traverse_bytes`: so does a traversal, and bytes behind the packet are carried along.
-/

namespace P4db.MyP4db

/-! ### Fields and headers -/

theorem append_bytes16 (v : BitVec 16) : v.extractLsb' 8 8 ++ v.extractLsb' 0 8 = v := by
  apply BitVec.eq_of_getLsbD_eq
  intro i hi
  rw [BitVec.getLsbD_append, BitVec.getLsbD_extractLsb', BitVec.getLsbD_extractLsb']
  split_ifs with h
  · simp [h]
  · have hlt : i - 8 < 8 := by omega
    have hsum : 8 + (i - 8) = i := by omega
    simp [hlt, hsum]

theorem append_bytes32 (v : BitVec 32) :
    v.extractLsb' 24 8 ++ v.extractLsb' 16 8 ++ v.extractLsb' 8 8 ++ v.extractLsb' 0 8 = v := by
  apply BitVec.eq_of_getLsbD_eq
  intro i hi
  simp only [BitVec.getLsbD_append, BitVec.getLsbD_extractLsb']
  split_ifs with h₁ h₂ h₃
  · simp [h₁]
  · have hsum : 8 + (i - 8) = i := by omega
    simp [h₂, hsum]
  · have hsum : 16 + (i - 8 - 8) = i := by omega
    simp [h₃, hsum]
  · have hlt : i - 8 - 8 - 8 < 8 := by omega
    have hsum : 24 + (i - 8 - 8 - 8) = i := by omega
    simp [hlt, hsum]

/-- A packet on the wire, from `lock_info` on. -/
def Packet.bytes (pkt : Packet) : List Byte :=
  pkt.lockInfo.bytes ++ pkt.instrs.flatMap RegInstr.bytes ++ [pkt.last]

namespace Wire

theorem extractLockInfo_bytes (l : LockInfo) (rest : List Byte) :
    extractLockInfo (l.bytes ++ rest) = some (l, rest) := by
  show some ((⟨_ ++ _ ++ _ ++ _, _ ++ _ ++ _ ++ _, _ ++ _ ++ _ ++ _, l.isSecondPass, l.nFailed⟩ :
    LockInfo), rest) = _
  rw [append_bytes32, append_bytes32, append_bytes32]

theorem extractInstr_bytes (x : RegInstr) (rest : List Byte) :
    extractInstr (x.bytes ++ rest) = some (x, rest) := by
  show some ((⟨x.type, x.op, _ ++ _, _ ++ _ ++ _ ++ _⟩ : RegInstr), rest) = _
  rw [append_bytes16, append_bytes32]

/-! ### The parser -/

/-- The bytes from an instruction on. -/
def wire (last : Byte) (tail : List Byte) (l : List RegInstr) : List Byte :=
  l.flatMap RegInstr.bytes ++ last :: tail

theorem wire_cons (last : Byte) (tail : List Byte) (x : RegInstr) (l : List RegInstr) :
    wire last tail (x :: l) = x.bytes ++ wire last tail l := by
  simp [wire]

theorem parseSkips_wire {last : Byte} (hlast : last ≠ skip) (tail : List Byte) (n : ℕ)
    (l : List RegInstr) :
    parseSkips n (wire last tail l) =
      if (l.takeWhile fun x => x.type = skip).length ≤ n then
        some (l.takeWhile fun x => x.type = skip,
          wire last tail (l.dropWhile fun x => x.type = skip))
      else none := by
  induction l generalizing n with
  | nil =>
    have hhead : (wire last tail []).head? ≠ some skip := by simpa [wire] using hlast
    unfold parseSkips
    rw [if_neg hhead]
    rfl
  | cons x l ih =>
    have hhead : (wire last tail (x :: l)).head? = some x.type := rfl
    unfold parseSkips
    rw [hhead]
    by_cases hx : x.type = skip
    · rw [if_pos (congrArg some hx), List.takeWhile_cons_of_pos (by simpa using hx),
        List.dropWhile_cons_of_pos (by simpa using hx)]
      cases n with
      | zero => rfl
      | succ n =>
        simp only [List.length_cons, Nat.add_le_add_iff_right, wire_cons, extractInstr_bytes, ih,
          Option.bind_eq_bind, Option.bind_some]
        split_ifs <;> rfl
    · rw [if_neg fun h => hx (Option.some.inj h), List.takeWhile_cons_of_neg (by simpa using hx),
        List.dropWhile_cons_of_neg (by simpa using hx)]
      rfl

theorem parseRegs_of_hasStop {type : Byte} (h : hasStop type = true) (pkt : List Byte)
    (reg : ℕ → Option RegInstr) : parseRegs (type :: pkt) reg = some (reg, type, pkt) := by
  unfold parseRegs
  exact if_pos h

theorem parseRegs_wire {last : Byte} (hlast : hasStop last = true) (tail : List Byte)
    (l : List RegInstr) (reg : ℕ → Option RegInstr) : parseRegs (wire last tail l) reg =
      (MyP4db.parseRegs last l reg).map fun r => (r.1, r.2.1, (wire last tail r.2.2).tail) := by
  induction l generalizing reg with
  | nil =>
    have hnil : wire last tail [] = last :: tail := rfl
    rw [hnil, parseRegs_of_hasStop hlast, MyP4db.parseRegs, if_pos hlast]
    rfl
  | cons x l ih =>
    have hcons : wire last tail (x :: l) = x.type :: x.op :: x.idx.extractLsb' 8 8 ::
        x.idx.extractLsb' 0 8 ::
        x.data.extractLsb' 24 8 :: x.data.extractLsb' 16 8 :: x.data.extractLsb' 8 8 ::
          x.data.extractLsb' 0 8 ::
        wire last tail l := wire_cons last tail x l
    rw [hcons, parseRegs, MyP4db.parseRegs]
    simp only [append_bytes16, append_bytes32, ih]
    split_ifs
    · rw [Option.map_some, hcons]
      rfl
    · rfl
    · rfl

/-- The headers of a packet whose instructions are parsed to `hdr`. -/
def Header.ofPacket (hdr : MyP4db.Header) (tail : List Byte) : Header where
  lockInfo := hdr.lockInfo
  regSkip := hdr.regSkip
  reg := hdr.reg
  nextType := hdr.nextType
  payload := (wire hdr.last tail hdr.rest).tail

theorem ne_skip_of_hasStop {type : Byte} (h : hasStop type = true) : type ≠ skip := by
  rintro rfl
  exact Bool.noConfusion h

/-- **The parser.** -/
theorem parse_bytes {pkt : Packet} (hlast : hasStop pkt.last = true) (tail : List Byte) :
    parse (pkt.bytes ++ tail) = (MyP4db.parse pkt).map fun hdr => Header.ofPacket hdr tail := by
  have hbytes : pkt.bytes ++ tail = pkt.lockInfo.bytes ++ wire pkt.last tail pkt.instrs := by
    simp [Packet.bytes, wire]
  unfold parse MyP4db.parse
  rw [hbytes]
  simp only [Option.bind_eq_bind, extractLockInfo_bytes, Option.bind_some,
    parseSkips_wire (ne_skip_of_hasStop hlast)]
  split_ifs
  · rw [Option.bind_some, parseRegs_wire hlast]
    cases MyP4db.parseRegs pkt.last (pkt.instrs.dropWhile fun x => x.type = skip) fun _ => none with
    | none => rfl
    | some r => rfl
  · rfl

/-! ### Traversals -/

/-- The control does not see the addresses and the rest of the packet. -/
theorem ingress_frame (sw : Switch) (id : ℕ) (hdr : MyP4db.Header) (dst src : BitVec 48)
    (rest : List RegInstr) (last : Byte) :
    ingress sw id { hdr with dstAddr := dst, srcAddr := src, rest := rest, last := last } =
      { ingress sw id hdr with
        hdr := { (ingress sw id hdr).hdr with
          dstAddr := dst, srcAddr := src, rest := rest, last := last } } := by
  unfold ingress decideLocks access
  dsimp only
  split_ifs <;> rfl

/-- What the deparser emits behind the instructions of this pass. -/
theorem cons_tail_wire (rest : List RegInstr) (nextType last : Byte) (tail : List Byte) :
    nextType :: (wire last tail rest).tail =
      (match rest with
        | [] => []
        | x :: l => { x with type := nextType } :: l).flatMap RegInstr.bytes ++
        (if rest = [] then nextType else last) :: tail := by
  cases rest with
  | nil => rfl
  | cons x l =>
    rw [wire_cons, if_neg (List.cons_ne_nil x l)]
    simp [RegInstr.bytes, RegInstr.body, wire]

/-- **The deparser.** -/
theorem emit_ofControl (hdr res : MyP4db.Header) (hrest : res.rest = hdr.rest)
    (hlast : res.last = hdr.last) (tail : List Byte) :
    ((Header.ofPacket hdr tail).ofControl res).emit = res.emit.bytes ++ tail := by
  unfold Header.emit Header.ofControl Packet.bytes MyP4db.Header.emit
  dsimp only [Header.ofPacket]
  rw [cons_tail_wire, hrest, hlast]
  cases hdr.rest with
  | nil => simp only [List.flatMap_append, List.append_assoc, List.singleton_append]
  | cons x l => simp only [List.flatMap_append, List.append_assoc, List.singleton_append]

/-- **Refinement.**  A traversal on the bytes of a packet is the traversal of the packet. -/
theorem traverse_bytes {pkt : Packet} (hlast : hasStop pkt.last = true) (tail : List Byte)
    (sw : Switch) (id : ℕ) :
    traverse sw id (pkt.bytes ++ tail) = (MyP4db.parse pkt).map fun hdr =>
      ⟨(ingress sw id hdr).sw, (ingress sw id hdr).hdr.emit.bytes ++ tail,
        (ingress sw id hdr).verdict,
        (ingress sw id hdr).log⟩ := by
  unfold traverse
  rw [parse_bytes hlast]
  cases MyP4db.parse pkt with
  | none => rfl
  | some hdr =>
    set c := (Header.ofPacket hdr tail).toControl
    have hframe : ingress sw id hdr = { ingress sw id c with
        hdr := { (ingress sw id c).hdr with
          dstAddr := hdr.dstAddr, srcAddr := hdr.srcAddr, rest := hdr.rest, last := hdr.last } } :=
      ingress_frame sw id c hdr.dstAddr hdr.srcAddr hdr.rest hdr.last
    have hemit : ((Header.ofPacket hdr tail).ofControl (ingress sw id c).hdr).emit =
        (ingress sw id hdr).hdr.emit.bytes ++ tail := by
      rw [hframe]
      exact emit_ofControl hdr { (ingress sw id c).hdr with
        dstAddr := hdr.dstAddr, srcAddr := hdr.srcAddr, rest := hdr.rest, last := hdr.last }
          rfl rfl tail
    show some (⟨(ingress sw id c).sw,
      ((Header.ofPacket hdr tail).ofControl (ingress sw id c).hdr).emit, (ingress sw id c).verdict,
      (ingress sw id c).log⟩ : Result) =
      some ⟨(ingress sw id hdr).sw, (ingress sw id hdr).hdr.emit.bytes ++ tail,
        (ingress sw id hdr).verdict, (ingress sw id hdr).log⟩
    rw [hemit, hframe]

end Wire

end P4db.MyP4db
