import P4db.Ee.Equiv.Split
import P4db.Ee.SwitchGeneric
import P4db.Switch.Equiv.Passes

/-!
## What the switch does with a packet of two passes

The access modes of the host have other numbers than the operation codes of the switch:
`AccessMode::READ` is the byte that the switch takes for `OPCode_t.WRITE`, and `AccessMode::WRITE`
is none of its codes.

* `fillInstrs_eq`: the instructions, as a packet of the switch.
* `Accel`: what is known about the operations of an accelerated transaction.
* `apply_accessAt`: an instruction writes exactly if it comes from a READ.
* `makeTxnGeneric_iff`: what the packet leaves in the registers when it finds its locks free, and
  when this is what the transaction asks for (`lastValue`).
* `not_makeTxnGeneric_twoHot`: WRITEs that are lost.
-/

namespace P4db.SwitchInfo

open MyP4db
  (Byte RegInstr Cell Switch IsPass arranged packetOf clearStop markStop hasStop clearStop_markStop
  hasStop_nextOf_markStop numRegs)
open MyP4db.Wire (Executes execute)
open HotCold (reg pass1 pass2 SplitInv exists_of_accel extractHotCold)

variable {ops : List HotOp} {txn : Txn} {maxPasses : ℕ}

/-! ### The instructions -/

/-- The instruction for a hot operation. -/
def instrOf (pr : HotOp) : RegInstr := fillRegInstr ⟨0, 0, 0, 0⟩ pr

theorem foldlM_fillRegInstr {old : List RegInstr} (h : ops.length ≤ old.length)
    (l : List RegInstr) : ops.foldlM (Fill.put fillRegInstr) (l ++ old, l.length) =
      some (l ++ ops.map instrOf ++ old.drop ops.length, (l ++ ops.map instrOf).length) := by
  have hzip : List.zipWith fillRegInstr old ops = ops.map instrOf :=
    Fill.zipWith_eq_map (fun _ _ _ => rfl) h
  rw [Fill.foldlM_put _ h, hzip, List.length_append, List.length_map]

/-- The instructions of both passes, and the stop bits.  What stands behind them is not read. -/
theorem fillInstrs_eq {instrs : List RegInstr}
    (hlen : txn.hot.length + txn.hot2.length < instrs.length)
    (hone : ¬maxPasses > 1 → txn.hot2 = []) :
    ∃ x l, x.type = stop ∧ fillInstrs maxPasses txn instrs =
      some (txn.hot.map instrOf ++ markStop (txn.hot2.map instrOf) ++ x :: l) := by
  have hfirst : txn.hot.foldlM (Fill.put fillRegInstr) (instrs, 0) =
      some (txn.hot.map instrOf ++ instrs.drop txn.hot.length, (txn.hot.map instrOf).length) :=
    foldlM_fillRegInstr (by omega) []
  have hsecond : txn.hot2.length ≤ (instrs.drop txn.hot.length).length := by
    rw [List.length_drop]
    omega
  obtain ⟨x, l, hrest⟩ : ∃ x l, instrs.drop (txn.hot.length + txn.hot2.length) = x :: l :=
    List.exists_cons_of_ne_nil (by rw [Ne, List.drop_eq_nil_iff]; omega)
  refine ⟨{ x with type := stop }, l, rfl, ?_⟩
  unfold fillInstrs
  rw [hfirst, Option.bind_eq_bind, Option.bind_some]
  dsimp only
  split_ifs with hpasses
  · rw [foldlM_fillRegInstr hsecond, List.drop_drop, hrest, Option.bind_some]
    dsimp only
    cases hhot2 : txn.hot2 with
    | nil =>
      -- both stop bits are in the same place
      rw [List.map_nil, List.append_nil, Fill.modify_length, Option.bind_eq_bind, Option.bind_some,
        Fill.modify_length]
      simp [markStop]
    | cons pr ops =>
      rw [List.map_cons, List.append_assoc, List.cons_append, Fill.modify_length,
        Option.bind_eq_bind, Option.bind_some]
      have hend := Fill.modify_length (fun x => { x with type := stop })
        (txn.hot.map instrOf ++ { instrOf pr with type := (instrOf pr).type ||| stop } ::
          ops.map instrOf) x l
      have hlen' : (txn.hot.map instrOf ++ { instrOf pr with type := (instrOf pr).type ||| stop } ::
          ops.map instrOf).length =
            (txn.hot.map instrOf ++ instrOf pr :: ops.map instrOf).length := by
        simp
      rw [hlen', List.append_assoc, List.cons_append] at hend
      rw [hend, markStop, BitVec.or_comm]
      simp [stop, MyP4db.stop]
  · rw [hone hpasses] at hrest ⊢
    rw [List.length_nil, Nat.add_zero] at hrest
    rw [hrest, Fill.modify_length]
    simp [markStop]

/-! ### Accelerated transactions -/

/-- The operations of an accelerated transaction. -/
structure Accel (maxPasses : ℕ) (txn : Txn) : Prop where
  doAccel : txn.doAccel = true
  mode : ∀ pr ∈ txn.hot ++ txn.hot2, pr.1.mode ≠ .invalid
  distinct : (txn.hot.map reg).Nodup
  distinct2 : (txn.hot2.map reg).Nodup
  length : txn.hot.length + txn.hot2.length ≤ nOps
  one : ¬maxPasses > 1 → txn.hot2 = []
  acquire : txn.locksAcquire ≠ 0 → txn.hot2 ≠ []

/-- Locks are wanted for the second pass only. -/
theorem locksAcquire_step {partInfo : PartitionInfo} {txn₀ : Txn} {layout : DeclusteredLayout}
    {i : ℕ} {st : HotCold.State} (h : HotCold.At txn₀ layout i st)
    (hst : st.hotP2 = 0 → st.txn.locksAcquire = 0) :
    (HotCold.extractStep maxPasses partInfo st i).hotP2 = 0 →
      (HotCold.extractStep maxPasses partInfo st i).txn.locksAcquire = 0 := by
  cases HotCold.extractStep_classified maxPasses partInfo h with
  | first _ _ heq | giveUp _ _ heq =>
    rw [heq]
    exact hst
  | second _ _ _ _ _ heq =>
    rw [heq]
    exact fun hzero => absurd hzero (Nat.succ_ne_zero _)
  | cold _ heq =>
    obtain ⟨c₁, c₂, v₁, v₂, hadd⟩ := HotCold.addCold_eq (HotCold.look partInfo txn₀ st i)
      (HotCold.located partInfo txn₀ i) (layout.location (HotCold.located partInfo txn₀ i).id)
    rw [heq, hadd]
    exact hst

theorem accel_of_extract {partInfo : PartitionInfo} {layout layout' : DeclusteredLayout}
    {mem : Txn} (h : extractHotCold maxPasses partInfo (Txn.new mem) layout = some (txn, layout'))
    (hdo : txn.doAccel = true) : Accel maxPasses txn := by
  obtain ⟨st, rfl, haccel, hinv, hlocks⟩ := exists_of_accel
    (P := fun _ st => st.hotP2 = 0 → st.txn.locksAcquire = 0)
    (fun _ _ hinv hst => locksAcquire_step hinv.at' hst)
    (fun _ => rfl) h hdo
  have hsum := hinv.sum
  have hlen2 : (pass2 st).length = st.hotP2 := by
    simp [pass2]
  constructor
  · exact hdo
  · rw [hinv.hot_finishAccel, hinv.hot2_finishAccel rfl]
    exact fun pr hpr => hinv.mode_pass hpr
  · rw [hinv.hot_finishAccel]
    exact (hinv.accel haccel).1
  · rw [hinv.hot2_finishAccel rfl]
    exact hinv.distinct2
  · rw [hinv.hot_finishAccel, hinv.hot2_finishAccel rfl]
    simp only [pass1, pass2, List.length_map, List.length_range]
    omega
  · intro hpasses
    rw [hinv.hot2_finishAccel rfl]
    apply List.eq_nil_of_length_eq_zero
    rw [hlen2]
    exact (hinv.one (by omega)).1
  · intro hne hnil
    rw [hinv.hot2_finishAccel rfl] at hnil
    exact hne (hlocks (by rw [← hlen2, hnil]; rfl))

/-! ### The accesses -/

/-- The register cell of a hot operation. -/
def cellOf (pr : HotOp) : Cell := (pr.2.regArrayId, BitVec.ofNat 16 pr.2.regArrayIdx)

/-- The registers after the operations of one mode have written their values. -/
def applyOps (mode : AccessMode) (ops : List HotOp) (regs : Cell → BitVec 32) : Cell → BitVec 32 :=
  ops.foldl (fun regs pr => if pr.1.mode = mode then Function.update regs (cellOf pr) pr.1.value
    else regs) regs

theorem applyOps_cons (mode : AccessMode) (pr : HotOp) (ops : List HotOp)
    (regs : Cell → BitVec 32) :
    applyOps mode (pr :: ops) regs =
      applyOps mode ops (if pr.1.mode = mode then Function.update regs (cellOf pr) pr.1.value
        else regs) := rfl

/-- The value of the last operation of a mode on a cell. -/
def lastValue (mode : AccessMode) (ops : List HotOp) (c : Cell) : Option (BitVec 32) :=
  (ops.reverse.find? fun pr => pr.1.mode = mode ∧ cellOf pr = c).map fun pr => pr.1.value

theorem lastValue_of_forall_ne {mode : AccessMode} {c : Cell} (h : ∀ pr ∈ ops, cellOf pr ≠ c) :
    lastValue mode ops c = none := by
  rw [lastValue, Option.map_eq_none_iff, List.find?_eq_none]
  intro pr hpr
  simp [h pr (List.mem_reverse.mp hpr)]

/-- A cell holds the value that was written last, or what it held before. -/
theorem applyOps_apply (mode : AccessMode) (ops : List HotOp) (regs : Cell → BitVec 32) (c : Cell) :
    applyOps mode ops regs c = (lastValue mode ops c).getD (regs c) := by
  induction ops using List.reverseRecOn with
  | nil => rfl
  | append_singleton ops pr ih =>
    unfold applyOps lastValue at ih ⊢
    rw [List.foldl_append, List.foldl_cons, List.foldl_nil, List.reverse_append,
      List.reverse_singleton, List.singleton_append, List.find?_cons]
    by_cases hmode : pr.1.mode = mode
    · by_cases hc : cellOf pr = c
      · simp [hmode, hc]
      · simp [hmode, hc, Function.update_of_ne (Ne.symm hc), ih]
    · simp [hmode, ih]

theorem toNat_type_instrOf {pr : HotOp} (h : reg pr < numRegs) :
    (instrOf pr).type.toNat = reg pr + 1 := by
  show (BitVec.ofNat 8 (1 + reg pr)).toNat = reg pr + 1
  unfold numRegs at h
  rw [BitVec.toNat_ofNat]
  omega

theorem isPass_map_instrOf (hregs : ∀ pr ∈ ops, reg pr < numRegs)
    (hdistinct : (ops.map reg).Nodup) : IsPass (ops.map instrOf) := by
  have htype : ∀ x ∈ ops.map instrOf, 0 < x.type.toNat ∧ x.type.toNat ≤ numRegs := by
    intro x hx
    obtain ⟨pr, hpr, rfl⟩ := List.mem_map.mp hx
    rw [toNat_type_instrOf (hregs pr hpr)]
    exact ⟨Nat.succ_pos _, hregs pr hpr⟩
  have hmap : ((ops.map instrOf).map RegInstr.type).map BitVec.toNat =
      (ops.map reg).map (· + 1) := by
    rw [List.map_map, List.map_map, List.map_map]
    apply List.map_congr_left
    intro pr hpr
    exact toNat_type_instrOf (hregs pr hpr)
  refine MyP4db.isPass_of_types (fun x hx => (htype x hx).1) (fun x hx => (htype x hx).2) ?_
  apply List.Nodup.of_map BitVec.toNat
  rw [hmap]
  exact hdistinct.map fun _ _ heq => Nat.succ_injective heq

/-- The switch writes for a READ. -/
theorem modeByte_eq_write {mode : AccessMode} : modeByte mode = MyP4db.write ↔ mode = .read := by
  cases mode <;> decide

/-- One access. -/
theorem apply_accessAt {pr : HotOp} (h : reg pr < numRegs) (id : ℕ)
    (regs regs' : Cell → BitVec 32) :
    (MyP4db.accessAt id regs ((instrOf pr).type.toNat - 1) (instrOf pr)).apply regs' =
      if pr.1.mode = .read then Function.update regs' (cellOf pr) pr.1.value else regs' := by
  have hcell : ((instrOf pr).type.toNat - 1, (instrOf pr).idx) = cellOf pr := by
    rw [toNat_type_instrOf h]
    rfl
  have hop : (instrOf pr).op = MyP4db.write ↔ pr.1.mode = .read := modeByte_eq_write
  unfold MyP4db.accessAt Conflict.Access.apply
  simp only [hop, hcell]
  split_ifs <;> rfl

theorem replay_instrOf (hregs : ∀ pr ∈ ops, reg pr < numRegs) (id : ℕ)
    (regs regs' : Cell → BitVec 32) : Conflict.replay regs' ((ops.map instrOf).map fun x =>
      MyP4db.accessAt id regs (x.type.toNat - 1) x) = applyOps .read ops regs' := by
  induction ops generalizing regs' with
  | nil => rfl
  | cons pr ops ih =>
    rw [applyOps_cons, ← apply_accessAt (hregs pr List.mem_cons_self) id regs,
      ← ih fun pr' hpr' => hregs pr' (List.mem_cons_of_mem pr hpr')]
    rfl

/-- The registers after a pass. -/
theorem regs_of_executes (hregs : ∀ pr ∈ ops, reg pr < numRegs) (hdistinct : (ops.map reg).Nodup)
    {id : ℕ} {sw : Switch} {res : MyP4db.Wire.Result} (h : Executes id (ops.map instrOf) sw res) :
    res.sw.reg = applyOps .read ops sw.reg := by
  have hpass := isPass_map_instrOf hregs hdistinct
  rw [h.regs, h.log, ← replay_instrOf hregs id sw.reg]
  exact MyP4db.replay_arranged hpass id sw.reg

/-! ### Execution -/

/-- The lock information of the packet. -/
def lockInfoOf (txn : Txn) : MyP4db.LockInfo := ⟨txn.locksCheck, txn.locksAcquire, 0, 0, 0⟩

theorem makeTxnGeneric_eq (h : Accel maxPasses txn) (commPkt : InstrArray) :
    ∃ pkt tail, makeTxnGeneric maxPasses txn commPkt = some pkt ∧ pkt.bytes =
      (packetOf (lockInfoOf txn) [] (txn.hot.map instrOf)
        (markStop (txn.hot2.map instrOf)) stop).bytes ++ tail := by
  have hlen : txn.hot.length + txn.hot2.length < commPkt.val.length := by
    have hle := h.length
    rw [commPkt.property]
    unfold nOps at hle
    unfold maxHotOps
    omega
  obtain ⟨x, l, hx, hfill⟩ := fillInstrs_eq hlen h.one
  refine ⟨⟨txn.locksCheck, txn.locksAcquire, 0, 0, 0,
    txn.hot.map instrOf ++ markStop (txn.hot2.map instrOf) ++ x :: l⟩,
    x.body ++ l.flatMap RegInstr.bytes, ?_, ?_⟩
  · unfold makeTxnGeneric
    rw [if_pos h.doAccel, hfill]
    rfl
  · rw [← hx]
    exact MyP4db.bytes_packetOf (lockInfoOf txn) _ _ x l

/-- The operations that the switch comes to: it recirculates a packet only for its locks. -/
def executed (txn : Txn) : List HotOp :=
  if txn.locksAcquire = 0 then txn.hot else txn.hot ++ txn.hot2

/-- What a packet leaves in the registers that finds its locks free. -/
theorem exists_execute (h : Accel maxPasses txn)
    (hregs : ∀ pr ∈ txn.hot ++ txn.hot2, reg pr < numRegs) (commPkt : InstrArray) {sw : Switch}
    (hfree : sw.myLock &&& txn.locksCheck = 0) (id : ℕ) :
    ∃ pkt sw', makeTxnGeneric maxPasses txn commPkt = some pkt ∧
      execute id 2 sw pkt.bytes = some sw' ∧
      sw'.reg = applyOps .read (executed txn) sw.reg := by
  obtain ⟨pkt, tail, hpkt, hbytes⟩ := makeTxnGeneric_eq h commPkt
  have hregs1 : ∀ pr ∈ txn.hot, reg pr < numRegs :=
    fun pr hpr => hregs pr (List.mem_append_left _ hpr)
  have hregs2 : ∀ pr ∈ txn.hot2, reg pr < numRegs :=
    fun pr hpr => hregs pr (List.mem_append_right _ hpr)
  have hpass1 := isPass_map_instrOf hregs1 h.distinct
  have hpass2 := isPass_map_instrOf hregs2 h.distinct2
  have hnil : ∀ x ∈ ([] : List RegInstr), x.type = MyP4db.skip := nofun
  have hzero : ([] : List RegInstr).length ≤ MyP4db.maxSkips := Nat.zero_le _
  have hlast : hasStop stop = true := rfl
  have hstop : hasStop (MyP4db.nextOf stop (markStop (txn.hot2.map instrOf))) = true :=
    hasStop_nextOf_markStop _
  by_cases hacquire : txn.locksAcquire = 0
  · obtain ⟨res, hres, hexec, hrecirc⟩ :=
      MyP4db.Wire.traverse_only (l := lockInfoOf txn) hnil hzero hpass1 hlast tail
      sw id hstop rfl hfree hacquire
    refine ⟨pkt, res.sw, hpkt, ?_, ?_⟩
    · rw [hbytes, MyP4db.Wire.execute_succ hres, hrecirc]
      rfl
    · rw [executed, if_pos hacquire]
      exact regs_of_executes hregs1 h.distinct hexec
  · obtain ⟨pr, ops, hops⟩ := List.exists_cons_of_ne_nil (h.acquire hacquire)
    set y : RegInstr := { instrOf pr with type := MyP4db.stop ||| (instrOf pr).type }
    have hmark : markStop (txn.hot2.map instrOf) = y :: ops.map instrOf := by
      rw [hops]
      rfl
    have hystop : hasStop y.type = true := MyP4db.hasStop_stop_or _
    have hend : hasStop (MyP4db.nextOf stop []) = true := rfl
    obtain ⟨res, l', hres, hexec, hrecirc, hnext, hundo, hsecond⟩ :=
      MyP4db.Wire.traverse_first (l := lockInfoOf txn)
      hnil hzero hpass1 hlast tail sw id hystop rfl hfree hacquire
    rw [← hmark, clearStop_markStop hpass2, List.nil_append] at hnext
    have hskipped : (MyP4db.skipped sw.reg (txn.hot.map instrOf)).length ≤ MyP4db.maxSkips := by
      have hle := h.length
      rw [hops, List.length_cons] at hle
      rw [MyP4db.length_skipped hpass1, List.length_map]
      unfold nOps at hle
      unfold MyP4db.maxSkips
      omega
    obtain ⟨res', hres', hexec', hrecirc'⟩ := MyP4db.Wire.traverse_second
      (fun x hx => MyP4db.type_of_mem_skipped hx) hskipped hpass2 hlast tail res.sw id hend
      hundo hsecond
    refine ⟨pkt, res'.sw, hpkt, ?_, ?_⟩
    · rw [hbytes, hmark, MyP4db.Wire.execute_succ hres, if_pos hrecirc, hnext,
        MyP4db.Wire.execute_succ hres', hrecirc']
      rfl
    · rw [executed, if_neg hacquire, regs_of_executes hregs2 h.distinct2 hexec',
        regs_of_executes hregs1 h.distinct hexec]
      exact List.foldl_append.symm

/-- **The generic packet.**  When a packet finds its locks free, it leaves the switch after at most
two traversals, and the values of the READs that were executed are in their cells.  These are the
values of the WRITEs, as the transaction asks for, exactly if on every cell of the transaction the
last READ that was executed has the value of the last WRITE; where there is none, the old value of
the cell counts. -/
theorem makeTxnGeneric_iff {maxPasses : ℕ} {partInfo : PartitionInfo}
    {layout layout' : DeclusteredLayout} {mem txn : Txn}
    (h : extractHotCold maxPasses partInfo (Txn.new mem) layout = some (txn, layout'))
    (hdo : txn.doAccel = true) (hregs : ∀ pr ∈ txn.hot ++ txn.hot2, reg pr < numRegs)
    (commPkt : InstrArray) {sw : Switch} (hfree : sw.myLock &&& txn.locksCheck = 0) (id : ℕ) :
    ∃ pkt sw', makeTxnGeneric maxPasses txn commPkt = some pkt ∧
      execute id 2 sw pkt.bytes = some sw' ∧
      sw'.reg = applyOps .read (executed txn) sw.reg ∧
      ((∀ c, sw'.reg c = applyOps .write (txn.hot ++ txn.hot2) sw.reg c) ↔
        ∀ pr ∈ txn.hot ++ txn.hot2,
          (lastValue .read (executed txn) (cellOf pr)).getD (sw.reg (cellOf pr)) =
            (lastValue .write (txn.hot ++ txn.hot2) (cellOf pr)).getD (sw.reg (cellOf pr))) := by
  obtain ⟨pkt, sw', hpkt, hexec, hreg⟩ :=
    exists_execute (accel_of_extract h hdo) hregs commPkt hfree id
  refine ⟨pkt, sw', hpkt, hexec, hreg, ?_⟩
  simp only [hreg, applyOps_apply]
  refine ⟨fun hall pr _ => hall (cellOf pr), fun hall c => ?_⟩
  by_cases hc : ∃ pr ∈ txn.hot ++ txn.hot2, cellOf pr = c
  · obtain ⟨pr, hpr, rfl⟩ := hc
    exact hall pr hpr
  · -- a cell that no operation is on
    have hne : ∀ pr ∈ txn.hot ++ txn.hot2, cellOf pr ≠ c := fun pr hpr heq => hc ⟨pr, hpr, heq⟩
    have hexecuted : ∀ pr ∈ executed txn, cellOf pr ≠ c := by
      intro pr hpr
      unfold executed at hpr
      split_ifs at hpr
      · exact hne pr (List.mem_append_left _ hpr)
      · exact hne pr hpr
    rw [lastValue_of_forall_ne hexecuted, lastValue_of_forall_ne hne]

/-! ### Two transactions -/

/-- A buffer of zeros. -/
def zeroBuf : InstrArray := ⟨List.replicate 9 ⟨0, 0, 0, 0⟩, rfl⟩

/-- The registers hold what the transaction writes. -/
def settled (txn : Txn) : Switch := ⟨0, applyOps .write (txn.hot ++ txn.hot2) fun _ => 0⟩

theorem makeTxnGeneric_iff_settled : ∃ txn layout', extractHotCold 2 HotCold.oneNode
      (Txn.new (HotCold.memOf HotCold.twoHot)) HotCold.sample = some (txn, layout') ∧
      txn.doAccel = true ∧
    ∃ pkt sw', makeTxnGeneric 2 txn zeroBuf = some pkt ∧
      execute 0 2 (settled txn) pkt.bytes = some sw' ∧
      ∀ c, sw'.reg c = applyOps .write (txn.hot ++ txn.hot2) (settled txn).reg c := by
  obtain ⟨txn, layout', heq, hval⟩ := HotCold.exists_extract_sample 2 HotCold.twoHot
    (fun txn => (txn.doAccel, decide (∀ pr ∈ txn.hot ++ txn.hot2, reg pr < numRegs),
      decide (∀ pr ∈ txn.hot ++ txn.hot2,
        (lastValue .read (executed txn) (cellOf pr)).getD ((settled txn).reg (cellOf pr)) =
          (lastValue .write (txn.hot ++ txn.hot2) (cellOf pr)).getD
          ((settled txn).reg (cellOf pr)))))
    (v := (true, true, true)) (by decide) (by decide +kernel)
  obtain ⟨hdo, hregs, hsame⟩ : txn.doAccel = true ∧ _ = true ∧ _ = true := by
    simpa only [Prod.mk.injEq] using hval
  have hfree : (settled txn).myLock &&& txn.locksCheck = 0 := BitVec.zero_and
  obtain ⟨pkt, sw', hpkt, hexec, -, hiff⟩ :=
    makeTxnGeneric_iff heq hdo (of_decide_eq_true hregs) zeroBuf hfree 0
  exact ⟨txn, layout', heq, hdo, pkt, sw', hpkt, hexec, hiff.mpr (of_decide_eq_true hsame)⟩

/-- WRITEs to registers that are zero leave them so. -/
theorem not_makeTxnGeneric_twoHot : ∃ txn layout', extractHotCold 2 HotCold.oneNode
      (Txn.new (HotCold.memOf HotCold.twoHot)) HotCold.sample = some (txn, layout') ∧
      txn.doAccel = true ∧
    (∀ pr ∈ txn.hot ++ txn.hot2, reg pr < numRegs) ∧
    ∃ pkt sw', makeTxnGeneric 2 txn zeroBuf = some pkt ∧
      execute 0 2 ⟨0, fun _ => 0⟩ pkt.bytes = some sw' ∧
      ∃ pr ∈ txn.hot, pr.1.mode = .write ∧ pr.1.value ≠ 0 ∧ sw'.reg (cellOf pr) = 0 := by
  obtain ⟨txn, layout', heq, hval⟩ := HotCold.exists_extract_sample 2 HotCold.twoHot
    (fun txn => (txn.doAccel, decide (∀ pr ∈ txn.hot ++ txn.hot2, reg pr < numRegs),
      decide (∃ pr ∈ txn.hot, pr.1.mode = .write ∧ pr.1.value ≠ 0 ∧
        applyOps .read (executed txn) (fun _ => 0) (cellOf pr) = 0)))
    (v := (true, true, true)) (by decide) (by decide +kernel)
  obtain ⟨hdo, hregs, hex⟩ : txn.doAccel = true ∧ _ = true ∧ _ = true := by
    simpa only [Prod.mk.injEq] using hval
  have hregs := of_decide_eq_true hregs
  obtain ⟨pr, hpr, hmode, hne, hzero⟩ := of_decide_eq_true hex
  have hfree : (⟨0, fun _ => 0⟩ : Switch).myLock &&& txn.locksCheck = 0 := BitVec.zero_and
  obtain ⟨pkt, sw', hpkt, hexec, hreg⟩ :=
    exists_execute (accel_of_extract heq hdo) hregs zeroBuf hfree 0
  refine ⟨txn, layout', heq, hdo, hregs, pkt, sw', hpkt, hexec, pr, hpr, hmode, hne, ?_⟩
  rw [hreg]
  exact hzero

end P4db.SwitchInfo
