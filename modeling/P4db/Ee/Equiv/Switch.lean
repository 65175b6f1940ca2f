import P4db.Ee.Switch
import P4db.Switch.Equiv.NewP4db

/-!
# The packet encoder and the switch program agree

The packed structure `pass1_pkt_t` and the P4 header `reg_instr_map_t` describe the same packet: the
data of an instruction starts where the parser finds `d_r`, and its mask is the low byte of `i_r`
(`instrOff_add_iWidth`).  What the encoder leaves in the packet is therefore read off the two views
`maskOf` and `dataOf` of it (`mask_of_mem`, `mask_of_not_mem`, `data_of_mem`).

* `process_makeTxn`: the switch executes a packet of `make_txn` by exactly the hot operations of the
  transaction, whatever the buffer held before.
-/

namespace P4db.SwitchInfo

open NewP4db

/-! ### Where the fields are -/

theorem instrOff_succ (r : ℕ) : instrOff (r + 1) = instrOff r + (iWidth r + 32) := by
  rw [instrOff, List.range_succ, List.map_append, List.foldl_append]
  rfl

theorem instrOff_padded {r : ℕ} (hr : r ≤ nInstrsPadded) : instrOff r = 8 * paddedInstrPos r := by
  induction r with
  | zero => rfl
  | succ r ih =>
    simp only [nInstrsPadded] at hr ih
    have hw : iWidth r = 16 := if_pos (by omega)
    rw [instrOff_succ, ih (by omega), hw]
    simp only [paddedInstrPos]
    omega

theorem instrOff_normal (j : ℕ) : instrOff (nInstrsPadded + j) = 8 * normalInstrPos j := by
  induction j with
  | zero => exact instrOff_padded (Nat.le_refl _)
  | succ j ih =>
    have hw : iWidth (nInstrsPadded + j) = 8 := if_neg (by simp only [nInstrsPadded]; omega)
    rw [← Nat.add_assoc, instrOff_succ, ih, hw]
    simp only [normalInstrPos]
    omega

/-- **One layout.** The field `d_r` of the parser is the data of the encoder's instruction. -/
theorem instrOff_add_iWidth (r : ℕ) : instrOff r + iWidth r = 8 * (instrPos r + 1) := by
  unfold instrPos
  split_ifs with hr
  · have hw : iWidth r = 16 := if_pos hr
    rw [instrOff_padded (Nat.le_of_lt hr), hw]
    omega
  · obtain ⟨j, rfl⟩ := Nat.exists_eq_add_of_le (Nat.le_of_not_lt hr)
    have hw : iWidth (nInstrsPadded + j) = 8 := if_neg hr
    rw [instrOff_normal, hw, Nat.add_sub_cancel_left]
    omega

/-- Instructions follow each other without overlap. -/
theorem instrPos_disjoint {r r' : ℕ} (h : r' ≠ r) :
    instrPos r' + 5 ≤ instrPos r ∨ instrPos r + 5 ≤ instrPos r' := by
  unfold instrPos
  split_ifs <;> simp only [normalInstrPos, paddedInstrPos, nInstrsPadded] at * <;> omega

theorem le_instrPos (r : ℕ) : baseOffsetPos + 2 ≤ instrPos r := by
  unfold instrPos
  split_ifs <;> simp only [normalInstrPos, paddedInstrPos] <;> omega

/-! ### Two views of a packet -/

variable {pkt : Buf} {r r' : ℕ}

/-- The mask of an instruction. -/
def maskOf (pkt : Buf) (r : ℕ) : BitVec 8 := pkt.extract (8 * instrPos r) 8

/-- The data of an instruction. -/
def dataOf (pkt : Buf) (r : ℕ) : BitVec 32 := pkt.extract (8 * (instrPos r + 1)) 32

theorem d_parseRegInstrs (pkt : Buf) (r : ℕ) : (parseRegInstrs pkt).d r = dataOf pkt r := by
  show pkt.extract (instrOff r + iWidth r) 32 = _
  rw [instrOff_add_iWidth]
  rfl

theorem getLsbD_i_parseRegInstrs (pkt : Buf) (r : ℕ) {n : ℕ} (hn : n < 8) :
    ((parseRegInstrs pkt).i r).getLsbD n = (maskOf pkt r).getLsbD n := by
  have hpos := instrOff_add_iWidth r
  have hw : n < iWidth r := by
    unfold iWidth
    split_ifs <;> omega
  show (pkt.extract (instrOff r) (iWidth r)).getLsbD n = _
  rw [maskOf, Buf.getLsbD_extract, Buf.getLsbD_extract]
  have hbit : instrOff r + (iWidth r - 1 - n) = 8 * instrPos r + (8 - 1 - n) := by omega
  simp only [hn, hw, hbit]

theorem low_i_parseRegInstrs (pkt : Buf) (r : ℕ) :
    ((parseRegInstrs pkt).i r).extractLsb' 0 7 = (maskOf pkt r).extractLsb' 0 7 := by
  apply BitVec.eq_of_getLsbD_eq
  intro n hn
  rw [BitVec.getLsbD_extractLsb', BitVec.getLsbD_extractLsb', Nat.zero_add,
    getLsbD_i_parseRegInstrs pkt r (by omega)]

theorem maskOf_storeMask (pkt : Buf) (r r' : ℕ) (m : BitVec 8) :
    maskOf (storeMask pkt r m) r' = if r' = r then m else maskOf pkt r' := by
  split_ifs with h
  · subst h
    exact Buf.extract_storeBE _ 1 m
  · apply Buf.extract_storeBE_of_disjoint
    have := instrPos_disjoint h
    omega

theorem maskOf_storeData (pkt : Buf) (r r' : ℕ) (v : BitVec 32) :
    maskOf (storeData pkt r v) r' = maskOf pkt r' := by
  apply Buf.extract_storeBE_of_disjoint
  by_cases h : r' = r
  · subst h
    omega
  · have := instrPos_disjoint h
    omega

theorem dataOf_storeMask (pkt : Buf) (r r' : ℕ) (m : BitVec 8) :
    dataOf (storeMask pkt r m) r' = dataOf pkt r' := by
  apply Buf.extract_storeBE_of_disjoint
  by_cases h : r' = r
  · subst h
    omega
  · have := instrPos_disjoint h
    omega

theorem dataOf_storeData (pkt : Buf) (r r' : ℕ) (v : BitVec 32) :
    dataOf (storeData pkt r v) r' = if r' = r then v else dataOf pkt r' := by
  split_ifs with h
  · subst h
    exact Buf.extract_storeBE _ 4 v
  · apply Buf.extract_storeBE_of_disjoint
    have := instrPos_disjoint h
    omega

/-- The part of the packet before the instructions: the identification and the offset. -/
structure HeaderOk (pkt : Buf) (base : ℕ) : Prop where
  uid : pkt.extract (uidOff 0) 128 = uidHdr
  offset : pkt.extract (uidOff 4) 16 = BitVec.ofNat 16 base

theorem HeaderOk.storeBE {base : ℕ} (h : HeaderOk pkt base) {k n : ℕ} (hk : baseOffsetPos + 2 ≤ k)
    (v : BitVec (8 * n)) : HeaderOk (pkt.storeBE k n v) base := by
  have hpos : 8 * (baseOffsetPos + 2) = uidOff 4 + 16 := rfl
  refine ⟨?_, ?_⟩
  · rw [Buf.extract_storeBE_of_disjoint _ (Or.inl ?_), h.uid]
    have : uidOff 0 + 128 = uidOff 4 := rfl
    omega
  · rw [Buf.extract_storeBE_of_disjoint _ (Or.inl ?_), h.offset]
    omega

theorem HeaderOk.storeMask {base : ℕ} (h : HeaderOk pkt base) (r : ℕ) (m : BitVec 8) :
    HeaderOk (storeMask pkt r m) base := h.storeBE (le_instrPos r) _

theorem HeaderOk.storeData {base : ℕ} (h : HeaderOk pkt base) (r : ℕ) (v : BitVec 32) :
    HeaderOk (storeData pkt r v) base :=
  h.storeBE (Nat.le_succ_of_le (le_instrPos r)) _

/-- The four words the parser compares are the identification. -/
theorem HeaderOk.instrs_parse {base : ℕ} (h : HeaderOk pkt base) :
    (parse pkt).instrs = some (parseRegInstrs pkt) := by
  have hword : ∀ n < 4, pkt.extract (uidOff n) 32 = uidHdr.extractLsb' (96 - 32 * n) 32 := by
    intro n hn
    apply BitVec.eq_of_getLsbD_eq
    intro i hi
    rw [← h.uid, BitVec.getLsbD_extractLsb', Buf.getLsbD_extract, Buf.getLsbD_extract]
    have hpos : uidOff n + (32 - 1 - i) = uidOff 0 + (128 - 1 - (96 - 32 * n + i)) := by
      simp only [uidOff]
      omega
    have hlt : 96 - 32 * n + i < 128 := by omega
    simp only [hi, hlt, hpos, decide_true, Bool.true_and]
  show (if _ then _ else _) = _
  rw [if_pos]
  rw [hword 0 (by decide), hword 1 (by decide), hword 2 (by decide), hword 3 (by decide)]
  decide

/-! ### The encoder -/

theorem headerOk_fillNetworkHdr (conf : Macs) (pkt : Buf) (base : ℕ) :
    HeaderOk ((fillNetworkHdr conf pkt).storeBE baseOffsetPos 2 (BitVec.ofNat 16 base)) base := by
  refine ⟨?_, ?_⟩
  · rw [Buf.extract_storeBE_of_disjoint _ (Or.inl (by decide))]
    exact Buf.extract_storeBE uidPos 16 uidHdr
  · exact Buf.extract_storeBE baseOffsetPos 2 _

theorem foldl_storeMask_zero {base : ℕ} (h : HeaderOk pkt base) (l : List ℕ) :
    HeaderOk (l.foldl (fun pkt i => storeMask pkt i 0#8) pkt) base ∧
      ∀ r, r ∈ l ∨ maskOf pkt r = 0#8 →
        maskOf (l.foldl (fun pkt i => storeMask pkt i 0#8) pkt) r = 0#8 := by
  induction l generalizing pkt with
  | nil => exact ⟨h, fun r hr => hr.resolve_left List.not_mem_nil⟩
  | cons i l ih =>
    obtain ⟨hhdr, hmask⟩ := ih (h.storeMask i 0#8)
    refine ⟨hhdr, fun r hr => hmask r ?_⟩
    rw [maskOf_storeMask]
    by_cases hri : r = i
    · exact Or.inr (if_pos hri)
    · rw [if_neg hri]
      exact hr.imp_left fun hmem => (List.mem_cons.mp hmem).resolve_left hri

theorem clearMasks_spec {base : ℕ} (h : HeaderOk pkt base) :
    HeaderOk (clearMasks pkt) base ∧ ∀ r < nRegs, maskOf (clearMasks pkt) r = 0#8 := by
  obtain ⟨h₁, hm₁⟩ := foldl_storeMask_zero h (List.range nInstrsPadded)
  obtain ⟨h₂, hm₂⟩ := foldl_storeMask_zero h₁ (List.range' nInstrsPadded (nRegs - nInstrsPadded))
  refine ⟨h₂, fun r hr => hm₂ r ?_⟩
  by_cases hpad : r < nInstrsPadded
  · exact Or.inr (hm₁ r (Or.inl (List.mem_range.mpr hpad)))
  · refine Or.inl (List.mem_range'_1.mpr ⟨Nat.le_of_not_lt hpad, ?_⟩)
    have : nInstrsPadded + (nRegs - nInstrsPadded) = nRegs := rfl
    omega

/-- The mask the encoder stores for an operation. -/
def instrMask (base : ℕ) (pr : HotOp) : BitVec 8 :=
  BitVec.ofNat 8 ((if pr.1.mode = .write then 2 ^ 7 else 0) ||| (pr.2.regArrayIdx - base))

section Mask

variable {base : ℕ} {pr : HotOp}

theorem getLsbD_instrMask (hlt : pr.2.regArrayIdx < base + 2 ^ 7) :
    (instrMask base pr).getLsbD 7 = decide (pr.1.mode = .write) := by
  have hk : (pr.2.regArrayIdx - base).testBit 7 = false := Nat.testBit_lt_two_pow (by omega)
  rw [instrMask, BitVec.getLsbD_ofNat, Nat.testBit_or, hk]
  split_ifs with hw
  · rw [hw]; decide
  · simp [hw]

theorem toNat_low_instrMask (hlt : pr.2.regArrayIdx < base + 2 ^ 7) :
    ((instrMask base pr).extractLsb' 0 7).toNat = pr.2.regArrayIdx - base := by
  have hk : (pr.2.regArrayIdx - base) % 2 ^ 7 = pr.2.regArrayIdx - base :=
    Nat.mod_eq_of_lt (by omega)
  have hw : (if pr.1.mode = .write then 2 ^ 7 else 0) % 2 ^ 7 = 0 := by split_ifs <;> rfl
  have hdvd : ∀ n : ℕ, n % 2 ^ 8 % 2 ^ 7 = n % 2 ^ 7 := fun n =>
    Nat.mod_mod_of_dvd n (by decide)
  rw [instrMask, BitVec.extractLsb'_toNat, BitVec.toNat_ofNat, Nat.shiftRight_zero, hdvd,
    Nat.or_mod_two_pow, hw, hk, Nat.zero_or]

theorem fillInstr_eq (pkt : Buf) (hge : base ≤ pr.2.regArrayIdx)
    (hlt : pr.2.regArrayIdx < base + 2 ^ 7) :
    fillInstr base pkt pr = some (storeData (storeMask pkt pr.2.regArrayId (instrMask base pr))
      pr.2.regArrayId pr.1.value) := by
  have hidx : (pr.2.regArrayIdx + 2 ^ 64 - base) % 2 ^ 64 = pr.2.regArrayIdx - base := by omega
  have hfit : (pr.2.regArrayIdx - base) &&& (2 ^ 7 - 1) = pr.2.regArrayIdx - base := by
    rw [Nat.and_two_pow_sub_one_eq_mod]
    exact Nat.mod_eq_of_lt (by omega)
  unfold fillInstr
  rw [hidx, nOffsetBits, if_pos hfit]
  rfl

end Mask

/-- What the encoder leaves in a packet. -/
structure Encoded (pkt : Buf) (base : ℕ) (ops : List HotOp) : Prop where
  header : HeaderOk pkt base
  mask_of_mem : ∀ pr ∈ ops, maskOf pkt pr.2.regArrayId = instrMask base pr
  data_of_mem : ∀ pr ∈ ops, dataOf pkt pr.2.regArrayId = pr.1.value
  mask_of_not_mem : ∀ r < nRegs, r ∉ ops.map (fun pr => pr.2.regArrayId) → maskOf pkt r = 0#8

/-- The loop over the operations, on top of operations already encoded. -/
theorem foldlM_fillInstr {base : ℕ} {done ops : List HotOp} (h : Encoded pkt base done)
    (hnd : ((done ++ ops).map fun pr => pr.2.regArrayId).Nodup)
    (hops : ∀ pr ∈ ops, base ≤ pr.2.regArrayIdx ∧ pr.2.regArrayIdx < base + 2 ^ 7) :
    ∃ pkt', ops.foldlM (fillInstr base) pkt = some pkt' ∧ Encoded pkt' base (done ++ ops) := by
  induction ops generalizing pkt done with
  | nil => exact ⟨pkt, rfl, by rwa [List.append_nil]⟩
  | cons pr ops ih =>
    obtain ⟨hge, hlt⟩ := hops pr List.mem_cons_self
    have hfill := fillInstr_eq pkt hge hlt
    set pkt₁ := storeData (storeMask pkt pr.2.regArrayId (instrMask base pr)) pr.2.regArrayId
      pr.1.value with hpkt₁
    -- the new operation does not touch the instructions of the earlier ones
    have hfresh : ∀ pr' ∈ done, pr'.2.regArrayId ≠ pr.2.regArrayId := by
      intro pr' hpr' heq
      rw [List.map_append, List.nodup_append] at hnd
      exact hnd.2.2 _ (List.mem_map_of_mem hpr') _ (List.mem_map_of_mem List.mem_cons_self) heq
    have hmask : ∀ r, maskOf pkt₁ r = if r = pr.2.regArrayId then instrMask base pr
        else maskOf pkt r := fun r => by rw [hpkt₁, maskOf_storeData, maskOf_storeMask]
    have hdata : ∀ r, dataOf pkt₁ r = if r = pr.2.regArrayId then pr.1.value
        else dataOf pkt r := fun r => by rw [hpkt₁, dataOf_storeData, dataOf_storeMask]
    have henc : Encoded pkt₁ base (done ++ [pr]) := by
      refine ⟨(h.header.storeMask _ _).storeData _ _, ?_, ?_, ?_⟩
      · intro pr' hpr'
        rcases List.mem_append.mp hpr' with hpr' | hpr'
        · rw [hmask, if_neg (hfresh pr' hpr'), h.mask_of_mem pr' hpr']
        · rw [List.mem_singleton.mp hpr', hmask, if_pos rfl]
      · intro pr' hpr'
        rcases List.mem_append.mp hpr' with hpr' | hpr'
        · rw [hdata, if_neg (hfresh pr' hpr'), h.data_of_mem pr' hpr']
        · rw [List.mem_singleton.mp hpr', hdata, if_pos rfl]
      · intro r hr hout
        rw [List.map_append, List.mem_append, not_or, List.map_singleton,
          List.mem_singleton] at hout
        rw [hmask, if_neg hout.2, h.mask_of_not_mem r hr hout.1]
    have hcons : done ++ pr :: ops = done ++ [pr] ++ ops := by simp
    rw [hcons] at hnd ⊢
    obtain ⟨pkt', hrun, henc'⟩ := ih henc hnd fun pr' hpr' => hops pr' (List.mem_cons_of_mem _ hpr')
    refine ⟨pkt', ?_, henc'⟩
    rw [List.foldlM_cons, hfill]
    exact hrun

/-- The operations lie in block `b`, on different register arrays. -/
structure InBlock (b : ℕ) (ops : List HotOp) : Prop where
  distinct : (ops.map fun pr => pr.2.regArrayId).Nodup
  reg_lt : ∀ pr ∈ ops, pr.2.regArrayId < nRegs
  ge : ∀ pr ∈ ops, slotsPerSchedBlock * b ≤ pr.2.regArrayIdx
  lt : ∀ pr ∈ ops, pr.2.regArrayIdx < slotsPerSchedBlock * b + slotsPerSchedBlock

theorem baseOffset_spec (b : ℕ) :
    baseOffset b % 2 ^ 7 = 0 ∧ baseOffset b ≤ slotsPerSchedBlock * b ∧
      slotsPerSchedBlock * b + slotsPerSchedBlock ≤ baseOffset b + 2 ^ 7 := by
  simp only [baseOffset, slotsPerSchedBlock, nOffsetBits]
  omega

theorem makeTxn_encoded (conf : Macs) {b : ℕ} {txn : Txn} (haccel : txn.doAccel = true)
    (hops : InBlock b txn.hot) (hb : slotsPerSchedBlock * b + 31 < regSize) (commPkt : Buf) :
    ∃ pkt, makeTxn conf b txn commPkt = some pkt ∧ Encoded pkt (baseOffset b) txn.hot := by
  obtain ⟨-, hle, hge⟩ := baseOffset_spec b
  have hbase : baseOffset b < 2 ^ 16 - 1 := by
    simp only [regSize] at hb
    omega
  obtain ⟨hhdr, hclear⟩ := clearMasks_spec (headerOk_fillNetworkHdr conf commPkt (baseOffset b))
  have hempty : Encoded _ (baseOffset b) [] := ⟨hhdr, nofun, nofun, fun r hr _ => hclear r hr⟩
  obtain ⟨pkt, hrun, henc⟩ := foldlM_fillInstr hempty hops.distinct fun pr hpr => by
    have h₁ := hops.ge pr hpr
    have h₂ := hops.lt pr hpr
    omega
  refine ⟨pkt, ?_, henc⟩
  rw [makeTxn, if_pos ⟨haccel, hbase⟩]
  exact hrun

/-! ### Execution -/

/-- The switch has executed the operations: writes are stored, nothing else changes, and every
operation gets the old content of its cell. -/
structure Executes (ops : List HotOp) (regs : RegFile) (res : Result) : Prop where
  write : ∀ pr ∈ ops, pr.1.mode = .write →
    res.regs pr.2.regArrayId pr.2.regArrayIdx = pr.1.value
  frame : ∀ r i, (∀ pr ∈ ops, pr.1.mode = .write → ¬(pr.2.regArrayId = r ∧ pr.2.regArrayIdx = i)) →
    res.regs r i = regs r i
  returned : ∀ pr ∈ ops, res.instrs.d pr.2.regArrayId = regs pr.2.regArrayId pr.2.regArrayIdx

section Execution

variable {b : ℕ} {ops : List HotOp}

/-- The cell an action addresses: the first cell of the packet's window, moved by the mask. -/
theorem toNat_index_encoded (h : Encoded pkt (baseOffset b) ops)
    (hb : slotsPerSchedBlock * b + 31 < regSize) (r : ℕ) :
    ((parseRegInstrs pkt).index r).toNat =
      baseOffset b + ((maskOf pkt r).extractLsb' 0 7).toNat := by
  obtain ⟨hmod, hle, -⟩ := baseOffset_spec b
  have hoff : (parseRegInstrs pkt).offset = BitVec.ofNat 16 (baseOffset b) := h.header.offset
  have hbase : baseOffset b % 2 ^ 16 = baseOffset b := by
    simp only [regSize] at hb
    omega
  rw [toNat_index, low_i_parseRegInstrs, hoff, BitVec.toNat_ofNat, hbase]
  omega

theorem index_of_mem (h : Encoded pkt (baseOffset b) ops) (hops : InBlock b ops)
    (hb : slotsPerSchedBlock * b + 31 < regSize) {pr : HotOp} (hpr : pr ∈ ops) :
    ((parseRegInstrs pkt).index pr.2.regArrayId).toNat = pr.2.regArrayIdx := by
  obtain ⟨-, hle, hge⟩ := baseOffset_spec b
  have h₁ := hops.ge pr hpr
  have h₂ := hops.lt pr hpr
  rw [toNat_index_encoded h hb, h.mask_of_mem pr hpr, toNat_low_instrMask (by omega)]
  omega

theorem index_of_not_mem (h : Encoded pkt (baseOffset b) ops)
    (hb : slotsPerSchedBlock * b + 31 < regSize) {r : ℕ} (hr : r < nRegs)
    (hout : r ∉ ops.map fun pr => pr.2.regArrayId) :
    ((parseRegInstrs pkt).index r).toNat = baseOffset b := by
  rw [toNat_index_encoded h hb, h.mask_of_not_mem r hr hout]
  rfl

theorem index_lt (h : Encoded pkt (baseOffset b) ops) (hops : InBlock b ops)
    (hb : slotsPerSchedBlock * b + 31 < regSize) {r : ℕ} (hr : r < nRegs) :
    ((parseRegInstrs pkt).index r).toNat < regSize := by
  by_cases hmem : r ∈ ops.map fun pr => pr.2.regArrayId
  · obtain ⟨pr, hpr, rfl⟩ := List.mem_map.mp hmem
    have := hops.lt pr hpr
    rw [index_of_mem h hops hb hpr]
    simp only [slotsPerSchedBlock] at *
    omega
  · have := (baseOffset_spec b).2.1
    rw [index_of_not_mem h hb hr hmem]
    omega

/-- An array an operation works on, after its action. -/
theorem applied_of_mem (h : Encoded pkt (baseOffset b) ops) (hops : InBlock b ops)
    (hb : slotsPerSchedBlock * b + 31 < regSize) (regs : RegFile) {pr : HotOp} (hpr : pr ∈ ops) :
    (parseRegInstrs pkt).applied regs pr.2.regArrayId =
      if pr.1.mode = .write then
        Function.update (regs pr.2.regArrayId) pr.2.regArrayIdx pr.1.value
      else regs pr.2.regArrayId := by
  obtain ⟨-, -, hge⟩ := baseOffset_spec b
  have hlt := hops.lt pr hpr
  rw [RegInstrMap.applied, getLsbD_i_parseRegInstrs pkt _ (by decide), h.mask_of_mem pr hpr,
    getLsbD_instrMask (by omega), index_of_mem h hops hb hpr, d_parseRegInstrs,
    h.data_of_mem pr hpr]
  simp only [decide_eq_true_eq]

/-- An array without an operation is only read. -/
theorem applied_of_not_mem (h : Encoded pkt (baseOffset b) ops) (regs : RegFile) {r : ℕ}
    (hr : r < nRegs) (hout : r ∉ ops.map fun pr => pr.2.regArrayId) :
    (parseRegInstrs pkt).applied regs r = regs r := by
  rw [RegInstrMap.applied, getLsbD_i_parseRegInstrs pkt _ (by decide),
    h.mask_of_not_mem r hr hout]
  rfl

theorem process_encoded (h : Encoded pkt (baseOffset b) ops) (hops : InBlock b ops)
    (hb : slotsPerSchedBlock * b + 31 < regSize) (regs : RegFile) :
    ∃ res, process regs pkt = some res ∧ Executes ops regs res := by
  have hlt : ∀ r ∈ List.range nRegs, ((parseRegInstrs pkt).index r).toNat < regSize :=
    fun r hr => index_lt h hops hb (List.mem_range.mp hr)
  obtain ⟨regs', m', hrun, hin, hout⟩ := execReg_foldlM regs List.nodup_range hlt
  have hcell : ∀ pr ∈ ops, regs' pr.2.regArrayId =
      if pr.1.mode = .write then
        Function.update (regs pr.2.regArrayId) pr.2.regArrayIdx pr.1.value
      else regs pr.2.regArrayId := fun pr hpr => by
    rw [(hin _ (List.mem_range.mpr (hops.reg_lt pr hpr))).1, applied_of_mem h hops hb regs hpr]
  refine ⟨⟨regs', m', l2fwd (parse pkt).network⟩, ?_, ?_, ?_, ?_⟩
  · simp only [process, ingress, h.header.instrs_parse, Option.bind_eq_bind, Option.bind_some, hrun]
  · intro pr hpr hw
    show regs' _ _ = _
    rw [hcell pr hpr, if_pos hw, Function.update_self]
  · intro r i hnone
    show regs' r i = regs r i
    by_cases hr : r < nRegs
    · by_cases hmem : r ∈ ops.map fun pr => pr.2.regArrayId
      · obtain ⟨pr, hpr, rfl⟩ := List.mem_map.mp hmem
        rw [hcell pr hpr]
        split_ifs with hw
        · exact Function.update_of_ne (fun heq => hnone pr hpr hw ⟨rfl, heq.symm⟩) _ _
        · rfl
      · rw [(hin r (List.mem_range.mpr hr)).1, applied_of_not_mem h regs hr hmem]
    · rw [(hout r fun hmem => hr (List.mem_range.mp hmem)).1]
  · intro pr hpr
    show m'.d _ = _
    rw [(hin _ (List.mem_range.mpr (hops.reg_lt pr hpr))).2, index_of_mem h hops hb hpr]

end Execution

/-- **Encoder and switch program agree.** The packet of a transaction whose hot operations lie in
block `b` on different register arrays is parsed and executed as exactly these operations, for all
earlier contents of the buffer and of the registers. -/
theorem process_makeTxn (conf : Macs) (b : ℕ) (txn : Txn) (commPkt : Buf) (regs : RegFile)
    (haccel : txn.doAccel = true) (hops : InBlock b txn.hot)
    (hb : slotsPerSchedBlock * b + 31 < regSize) :
    ∃ pkt res, makeTxn conf b txn commPkt = some pkt ∧ process regs pkt = some res ∧
      (∀ pr ∈ txn.hot, pr.1.mode = .write →
        res.regs pr.2.regArrayId pr.2.regArrayIdx = pr.1.value) ∧
      (∀ r i, (∀ pr ∈ txn.hot, pr.1.mode = .write →
        ¬(pr.2.regArrayId = r ∧ pr.2.regArrayIdx = i)) → res.regs r i = regs r i) ∧
      ∀ pr ∈ txn.hot, res.instrs.d pr.2.regArrayId = regs pr.2.regArrayId pr.2.regArrayIdx := by
  obtain ⟨pkt, hmake, henc⟩ := makeTxn_encoded conf haccel hops hb commPkt
  obtain ⟨res, hproc, hexec⟩ := process_encoded henc hops hb regs
  exact ⟨pkt, res, hmake, hproc, hexec.write, hexec.frame, hexec.returned⟩

/-- A write to cell 37 of array 3 and a read of cell 40 of array 30, both in block 1. -/
def twoOps : Txn where
  coldOps _ := default
  hotOpsPass1 p :=
    if p = 0 then (⟨7, ⟨true, 0⟩, .write, 9#32⟩, ⟨3, 37, 5, 0⟩)
    else if p = 1 then (⟨8, ⟨true, 0⟩, .read, 0#32⟩, ⟨30, 40, 4, 1⟩)
    else default
  hotOpsPass2 _ := default
  initDone := true
  doAccel := true
  nAborts := 0
  hottestColdI1 := none
  hottestColdI2 := none
  locksCheck := 0
  locksAcquire := 0
  id := TxnId.default
  loaderId := 0

theorem inBlock_twoOps : InBlock 1 twoOps.hot :=
  ⟨by decide, by decide, by decide, by decide⟩

theorem process_makeTxn_twoOps :
    twoOps.doAccel = true ∧ InBlock 1 twoOps.hot ∧ slotsPerSchedBlock * 1 + 31 < regSize ∧
      ∃ pkt res, makeTxn ⟨0, 0⟩ 1 twoOps (fun _ => 0xff#8) = some pkt ∧
        process (fun _ _ => 6#32) pkt = some res ∧
        (∀ pr ∈ twoOps.hot, pr.1.mode = .write →
          res.regs pr.2.regArrayId pr.2.regArrayIdx = pr.1.value) ∧
        (∀ r i, (∀ pr ∈ twoOps.hot, pr.1.mode = .write →
          ¬(pr.2.regArrayId = r ∧ pr.2.regArrayIdx = i)) → res.regs r i = 6#32) ∧
        ∀ pr ∈ twoOps.hot, res.instrs.d pr.2.regArrayId = 6#32 :=
  ⟨rfl, inBlock_twoOps, by decide,
    process_makeTxn ⟨0, 0⟩ 1 twoOps (fun _ => 0xff#8) (fun _ _ => 6#32) rfl inBlock_twoOps
      (by decide)⟩

end P4db.SwitchInfo
