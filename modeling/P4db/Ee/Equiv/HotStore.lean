import P4db.Ee.Equiv.StartEnd
import P4db.Layout.Equiv.DeclusteredLayout

/-!
# The switch as a key-value store

During a hot period the register file stands in for the rows of the hot keys.  A cell of it holds
what the last write to it stored (`cellAfter`), packet by packet and operation by operation
(`processAll_spec`); the layout makes the cells of different hot keys different, so that writes to a
cell are the writes to its key (`cellAfter_hotPart`).

* `end_reads_last_write`: the end packets read, for every key, the value of the last transaction
  that wrote it, or the value the table had at the start.
-/

namespace P4db

open SwitchInfo NewP4db StartEnd HotCold

/-! ### The abstract store -/

/-- The value of key `k` after a sequence of operations. -/
def valueAfter (k : DbKey) (v : BitVec 32) (ops : List Op) : BitVec 32 :=
  ops.foldl (fun v op => if op.mode = .write ∧ op.id = k then op.value else v) v

/-- The content of a register cell after a sequence of operations on the switch. -/
def cellAfter (r i : ℕ) (v : BitVec 32) (ops : List HotOp) : BitVec 32 :=
  ops.foldl (fun v pr => if pr.1.mode = .write ∧ pr.2.regArrayId = r ∧ pr.2.regArrayIdx = i
    then pr.1.value else v) v

section Cell

variable {r i : ℕ} {v w : BitVec 32} {ops : List HotOp}

theorem cellAfter_append (ops ops' : List HotOp) :
    cellAfter r i v (ops ++ ops') = cellAfter r i (cellAfter r i v ops) ops' :=
  List.foldl_append

theorem cellAfter_of_no_write
    (h : ∀ pr ∈ ops, pr.1.mode = .write → ¬(pr.2.regArrayId = r ∧ pr.2.regArrayIdx = i)) :
    cellAfter r i v ops = v := by
  induction ops with
  | nil => rfl
  | cons pr ops ih =>
    have hpr : ¬(pr.1.mode = .write ∧ pr.2.regArrayId = r ∧ pr.2.regArrayIdx = i) :=
      fun hw => h pr List.mem_cons_self hw.1 hw.2
    rw [cellAfter, List.foldl_cons, if_neg hpr]
    exact ih fun pr' hpr' => h pr' (List.mem_cons_of_mem _ hpr')

/-- When all writes to a cell agree, the order of the operations does not matter. -/
theorem cellAfter_of_write
    (hex : v = w ∨ ∃ pr ∈ ops, pr.1.mode = .write ∧ pr.2.regArrayId = r ∧ pr.2.regArrayIdx = i)
    (hall : ∀ pr ∈ ops, pr.1.mode = .write → pr.2.regArrayId = r ∧ pr.2.regArrayIdx = i →
      pr.1.value = w) : cellAfter r i v ops = w := by
  induction ops generalizing v with
  | nil =>
    rcases hex with rfl | ⟨pr, hpr, -⟩
    · rfl
    · cases hpr
  | cons pr ops ih =>
    rw [cellAfter, List.foldl_cons]
    refine ih ?_ fun pr' hpr' => hall pr' (List.mem_cons_of_mem _ hpr')
    split_ifs with hw
    · exact Or.inl (hall pr List.mem_cons_self hw.1 hw.2)
    · rcases hex with rfl | ⟨pr', hpr', hw'⟩
      · exact Or.inl rfl
      · rcases List.mem_cons.mp hpr' with rfl | hpr'
        · exact absurd hw' hw
        · exact Or.inr ⟨pr', hpr', hw'⟩

end Cell

/-- One packet executes its operations on every cell. -/
theorem SwitchInfo.Executes.regs_eq {b : ℕ} {ops : List HotOp} {regs : RegFile} {res : Result}
    (h : Executes ops regs res) (hops : InBlock b ops) (r i : ℕ) :
    res.regs r i = cellAfter r i (regs r i) ops := by
  by_cases hex : ∃ pr ∈ ops, pr.1.mode = .write ∧ pr.2.regArrayId = r ∧ pr.2.regArrayIdx = i
  · obtain ⟨pr, hpr, hw, rfl, rfl⟩ := hex
    rw [h.write pr hpr hw]
    refine (cellAfter_of_write (Or.inr ⟨pr, hpr, hw, rfl, rfl⟩) fun pr' hpr' _ hcell => ?_).symm
    -- the operations of a packet lie on different arrays
    rw [List.inj_on_of_nodup_map hops.distinct hpr' hpr hcell.1]
  · have hno : ∀ pr ∈ ops, pr.1.mode = .write → ¬(pr.2.regArrayId = r ∧ pr.2.regArrayIdx = i) :=
      fun pr hpr hw hcell => hex ⟨pr, hpr, hw, hcell⟩
    rw [h.frame r i hno, cellAfter_of_no_write hno]

/-- **A sequence of packets** through the switch: the cells hold the last writes, and packets that
only read return what the registers held at the start. -/
theorem processAll_spec {b : ℕ} (hb : slotsPerSchedBlock * b + 31 < regSize) (regs : RegFile)
    (ps : List (Txn × Buf))
    (hps : ∀ p ∈ ps, InBlock b p.1.hot ∧ Encoded p.2 (baseOffset b) p.1.hot) :
    ∃ regs' res, processAll regs (ps.map Prod.snd) = some (regs', res) ∧
      (∀ r i, regs' r i = cellAfter r i (regs r i) (ps.flatMap fun p => p.1.hot)) ∧
      ((∀ p ∈ ps, ∀ pr ∈ p.1.hot, pr.1.mode ≠ .write) →
        List.Forall₂ (fun p re => ∀ pr ∈ p.1.hot,
          re.instrs.d pr.2.regArrayId = regs pr.2.regArrayId pr.2.regArrayIdx) ps res) := by
  induction ps generalizing regs with
  | nil => exact ⟨regs, [], rfl, fun _ _ => rfl, fun _ => List.Forall₂.nil⟩
  | cons p ps ih =>
    obtain ⟨hin, henc⟩ := hps p List.mem_cons_self
    obtain ⟨re, hproc, hexec⟩ := process_encoded henc hin hb regs
    obtain ⟨regs', res, hall, hcells, hreads⟩ := ih re.regs fun p' hp' =>
      hps p' (List.mem_cons_of_mem _ hp')
    refine ⟨regs', re :: res, ?_, ?_, ?_⟩
    · simp only [List.map_cons, processAll, hproc, hall, Option.bind_eq_bind, Option.bind_some]
    · intro r i
      rw [hcells, hexec.regs_eq hin, List.flatMap_cons, cellAfter_append]
    · intro hread
      refine List.Forall₂.cons hexec.returned ?_
      have hsame : ∀ r i, re.regs r i = regs r i := fun r i =>
        hexec.frame r i fun pr hpr hw => absurd hw (hread p List.mem_cons_self pr hpr)
      refine (hreads fun p' hp' => hread p' (List.mem_cons_of_mem _ hp')).imp fun p' re' h' => ?_
      intro pr hpr
      rw [h' pr hpr, hsame]

/-! ### Layout and cluster -/

/-- A layout on which different hot keys have different locations, with its block allocated.  The
distribution `id_freq` lists each key once (`nodup`). -/
structure HotLayout where
  idFreq : List (DbKey × ℕ)
  blockNum : ℕ
  nodup : (idFreq.map Prod.fst).Nodup
  block_lt : blockNum < 32
  distinct : ∀ k₁ ∈ idFreq.map Prod.fst, ∀ k₂ ∈ idFreq.map Prod.fst, k₁ ≠ k₂ →
    ((DeclusteredLayout.ofIdFreq idFreq).withBlock blockNum).isHot k₁ = true →
    ((DeclusteredLayout.ofIdFreq idFreq).withBlock blockNum).isHot k₂ = true →
    (((DeclusteredLayout.ofIdFreq idFreq).withBlock blockNum).location k₁).pos ≠
      (((DeclusteredLayout.ofIdFreq idFreq).withBlock blockNum).location k₂).pos

namespace HotLayout

variable (L : HotLayout)

/-- The layout itself. -/
def layout : DeclusteredLayout := (DeclusteredLayout.ofIdFreq L.idFreq).withBlock L.blockNum

/-- The keys of the distribution. -/
def keys : List DbKey := L.idFreq.map Prod.fst

variable {L}

theorem blockNum_lt : slotsPerSchedBlock * L.layout.blockNum + 31 < regSize := by
  have : L.layout.blockNum < 32 := L.block_lt
  simp only [slotsPerSchedBlock, regSize]
  omega

theorem exists_built {k : DbKey} (hk : k ∈ L.keys) :
    ∃ e ∈ DeclusteredLayout.built (sortByHeat L.idFreq), e.1 = k :=
  (DeclusteredLayout.mem_keys_iff (DeclusteredLayout.perm_sortByHeat _)).mp hk

theorem virtMap_isSome {k : DbKey} (hk : k ∈ L.keys) : (L.layout.virtMap k).isSome = true := by
  obtain ⟨e, he, rfl⟩ := exists_built hk
  rw [layout, DeclusteredLayout.virtMap_of_mem L.nodup he]
  rfl

/-- The location of a hot key lies in the block. -/
theorem location_of_hot {k : DbKey} (hk : k ∈ L.keys) (hhot : L.layout.isHot k = true) :
    (L.layout.location k).regArrayId < nRegs ∧
      slotsPerSchedBlock * L.layout.blockNum ≤ (L.layout.location k).regArrayIdx ∧
      (L.layout.location k).regArrayIdx <
        slotsPerSchedBlock * L.layout.blockNum + slotsPerSchedBlock := by
  obtain ⟨e, he, rfl⟩ := exists_built hk
  have hlt := (DeclusteredLayout.isHot_of_mem L.nodup he).mp hhot
  obtain ⟨hr, hi⟩ := Prod.mk.inj (DeclusteredLayout.pos_location_of_mem L.nodup L.block_lt he hlt)
  change (L.layout.location e.1).regArrayId = _ at hr
  change (L.layout.location e.1).regArrayIdx = slotsPerSchedBlock * L.layout.blockNum + _ at hi
  rw [hr, hi]
  exact ⟨DeclusteredLayout.regArrayId_lt he, Nat.le_add_right _ _, Nat.add_lt_add_left hlt _⟩

theorem eq_of_location_eq {k₁ k₂ : DbKey} (h₁ : k₁ ∈ L.keys) (h₂ : k₂ ∈ L.keys)
    (hot₁ : L.layout.isHot k₁ = true) (hot₂ : L.layout.isHot k₂ = true)
    (hr : (L.layout.location k₁).regArrayId = (L.layout.location k₂).regArrayId)
    (hi : (L.layout.location k₁).regArrayIdx = (L.layout.location k₂).regArrayIdx) : k₁ = k₂ := by
  by_contra hne
  exact L.distinct k₁ h₁ k₂ h₂ hne hot₁ hot₂ (Prod.ext hr hi)

/-- A key found in a slot of the block is a hot key, located there. -/
theorem of_revLookup {r s : ℕ} (hs : s < slotsPerSchedBlock) {k : DbKey}
    (h : L.layout.revLookup r (s + slotsPerSchedBlock * L.layout.blockNum) = some k) :
    k ∈ L.keys ∧ L.layout.isHot k = true ∧ (L.layout.location k).regArrayId = r ∧
      (L.layout.location k).regArrayIdx = s + slotsPerSchedBlock * L.layout.blockNum := by
  rw [Nat.add_comm] at h ⊢
  obtain ⟨e, he, rfl, hr, hi⟩ := DeclusteredLayout.exists_of_revLookup L.block_lt hs h
  have hlt : e.2.regArrayIdx < slotsPerSchedBlock := hi ▸ hs
  have hpos := DeclusteredLayout.pos_location_of_mem L.nodup L.block_lt he hlt
  rw [hr, hi] at hpos
  exact ⟨(DeclusteredLayout.mem_keys_iff (DeclusteredLayout.perm_sortByHeat _)).mpr ⟨e, he, rfl⟩,
    (DeclusteredLayout.isHot_of_mem L.nodup he).mpr hlt, Prod.mk.inj hpos⟩

/-- Distributions of at most `2 ^ 16` keys give such layouts. -/
def ofIdFreq (idFreq : List (DbKey × ℕ)) (blockNum : ℕ) (nodup : (idFreq.map Prod.fst).Nodup)
    (block_lt : blockNum < 32) (length_le : idFreq.length ≤ 2 ^ 16) : HotLayout where
  idFreq := idFreq
  blockNum := blockNum
  nodup := nodup
  block_lt := block_lt
  distinct := (DeclusteredLayout.roundTrip_of_regLoad_le nodup block_lt fun r _ =>
    (DeclusteredLayout.regLoad_le_length idFreq r).trans length_le).distinct

theorem consistent (L : HotLayout) : L.layout.Consistent where
  known _ _ _ hs _ h := virtMap_isSome (of_revLookup hs h).1
  pos _ _ _ hs _ h := (of_revLookup hs h).2.2

end HotLayout

/-- The nodes of a cluster, with what each contributes to the start and end packets. -/
structure Cluster where
  totalSize : ℕ
  numNodes : ℕ
  env : ℕ → Env
  partInfo_eq : ∀ n < numNodes, (env n).partInfo = ⟨totalSize, numNodes, n⟩

/-- The node that owns a key. -/
def Cluster.owner (C : Cluster) (k : DbKey) : ℕ :=
  (PartitionInfo.location ⟨C.totalSize, C.numNodes, 0⟩ k).target

/-- The value of a key in the table of its owner. -/
def Cluster.tableValue (C : Cluster) (k : DbKey) : BitVec 32 := (C.env (C.owner k)).table k

theorem Cluster.owner_of_local {C : Cluster} {n : ℕ} (hn : n < C.numNodes) {k : DbKey}
    (h : ((C.env n).partInfo.location k).isLocal = true) : C.owner k = n := by
  rw [C.partInfo_eq n hn] at h
  exact of_decide_eq_true h

/-! ### The start packets load the table -/

section StartEnd

variable {L : HotLayout} {C : Cluster} {gen : ℕ → StartEnd.State} {bufs : ℕ → Buf}

theorem mem_blockKeys {e : Env} {k : DbKey}
    (h : k ∈ blockKeys e L.layout slotsPerSchedBlock) :
    k ∈ L.keys ∧ L.layout.isHot k = true ∧ (e.partInfo.location k).isLocal = true := by
  obtain ⟨s, hs, hrow⟩ := List.mem_flatMap.mp h
  obtain ⟨r, -, hkey⟩ := List.mem_filterMap.mp hrow
  obtain ⟨hrev, hloc⟩ := Option.filter_eq_some_iff.mp hkey
  obtain ⟨hmem, hhot, -⟩ := HotLayout.of_revLookup (List.mem_range.mp hs) hrev
  exact ⟨hmem, hhot, hloc⟩

/-- The invariant of the walk, for all nodes. -/
theorem inv_of_gen
    (hgen : ∀ n < C.numNodes, genStartEndPackets (C.env n) ⟨0, bufs n⟩ L.layout = some (gen n))
    {n : ℕ} (hn : n < C.numNodes) :
    Inv (C.env n) L.layout slotsPerSchedBlock 0 (blockKeys (C.env n) L.layout slotsPerSchedBlock)
      (gen n) :=
  (genStartEndPackets_spec (C.env n) L.consistent HotLayout.blockNum_lt (bufs n)).2 _ (hgen n hn)

variable (hinv : ∀ n < C.numNodes, Inv (C.env n) L.layout slotsPerSchedBlock 0
  (blockKeys (C.env n) L.layout slotsPerSchedBlock) (gen n))

include hinv

/-- An operation of a start packet writes the table value of a local key to its cell. -/
theorem start_op {starts : List (Txn × Buf)}
    (hstarts : starts.Perm ((List.range C.numNodes).flatMap fun n => (gen n).start.done))
    {pr : HotOp} (hpr : pr ∈ starts.flatMap fun p => p.1.hot) :
    ∃ k ∈ L.keys, L.layout.isHot k = true ∧ pr.1.value = C.tableValue k ∧
      pr.2 = L.layout.location k := by
  obtain ⟨p, hp, hpr⟩ := List.mem_flatMap.mp hpr
  obtain ⟨n, hn, hp⟩ := List.mem_flatMap.mp (hstarts.mem_iff.mp hp)
  have hn := List.mem_range.mp hn
  obtain ⟨k, hk, hop⟩ := exists_left_of_mem_right (ops_of_inv (hinv n hn).start)
    (List.mem_flatMap.mpr ⟨p, hp, hpr⟩)
  obtain ⟨hmem, hhot, hloc⟩ := mem_blockKeys hk
  refine ⟨k, hmem, hhot, ?_, hop.2.2.2⟩
  rw [hop.2.2.1, Cluster.tableValue, Cluster.owner_of_local hn hloc]

/-- After the start packets, in any order, the cell of a local key holds its table value. -/
theorem cellAfter_start {starts : List (Txn × Buf)}
    (hstarts : starts.Perm ((List.range C.numNodes).flatMap fun n => (gen n).start.done))
    {n : ℕ} (hn : n < C.numNodes) {k : DbKey}
    (hk : k ∈ blockKeys (C.env n) L.layout slotsPerSchedBlock) (v : BitVec 32) :
    cellAfter (L.layout.location k).regArrayId (L.layout.location k).regArrayIdx v
      (starts.flatMap fun p => p.1.hot) = C.tableValue k := by
  obtain ⟨hmem, hhot, -⟩ := mem_blockKeys hk
  apply cellAfter_of_write
  · obtain ⟨pr, hpr, hop⟩ := exists_right_of_mem_left (ops_of_inv (hinv n hn).start) hk
    obtain ⟨p, hp, hpr⟩ := List.mem_flatMap.mp hpr
    have hp' : p ∈ starts :=
      hstarts.mem_iff.mpr (List.mem_flatMap.mpr ⟨n, List.mem_range.mpr hn, hp⟩)
    refine Or.inr ⟨pr, List.mem_flatMap.mpr ⟨p, hp', hpr⟩, hop.2.1, ?_⟩
    rw [hop.2.2.2]
    exact ⟨rfl, rfl⟩
  · intro pr hpr _ hcell
    obtain ⟨k', hmem', hhot', hval, hloc⟩ := start_op hinv hstarts hpr
    rw [hloc] at hcell
    rw [hval, HotLayout.eq_of_location_eq hmem' hmem hhot' hhot hcell.1 hcell.2]

/-- An operation of an end packet reads a key of the node from its cell. -/
theorem end_op {ends : List (Txn × Buf)}
    (hends : ends.Perm ((List.range C.numNodes).flatMap fun n => (gen n).fin.done))
    {p : Txn × Buf} (hp : p ∈ ends) {pr : HotOp} (hpr : pr ∈ p.1.hot) :
    pr.1.mode = .read ∧ pr.2 = L.layout.location pr.1.id ∧
      ∃ n < C.numNodes, pr.1.id ∈ blockKeys (C.env n) L.layout slotsPerSchedBlock := by
  obtain ⟨n, hn, hp⟩ := List.mem_flatMap.mp (hends.mem_iff.mp hp)
  have hn := List.mem_range.mp hn
  obtain ⟨k, hk, hop⟩ := exists_left_of_mem_right (ops_of_inv (hinv n hn).fin)
    (List.mem_flatMap.mpr ⟨p, hp, hpr⟩)
  obtain ⟨rfl, hmode, -, hloc⟩ := hop
  exact ⟨hmode, hloc, n, hn, hk⟩

end StartEnd

/-! ### The transactions write through -/

/-- A transaction sent to the switch: the partitioning its node sees, the transaction as loaded and
as `extract_hot_cold` left it, and the addresses and the old contents of its packet. -/
structure SentTxn where
  partInfo : PartitionInfo
  loaded : Txn
  txn : Txn
  conf : Macs
  buf : Buf

/-- The operations as loaded. -/
def SentTxn.ops (t : SentTxn) : List Op := (List.range nOps).map t.loaded.coldOps

/-- The transaction was accelerated, and all its keys occur in the layout. -/
structure SentTxn.Ok (L : HotLayout) (t : SentTxn) : Prop where
  extracted : ∃ layout', extractHotCold maxPassesAccel t.partInfo t.loaded L.layout =
    some (t.txn, layout')
  doAccel : t.txn.doAccel = true
  keys : ∀ op ∈ t.ops, op.mode ≠ .invalid → op.id ∈ L.keys

section Txns

variable {L : HotLayout} {t : SentTxn}

theorem SentTxn.Ok.accelerated (h : t.Ok L) :
    Accelerated t.partInfo t.loaded L.layout t.txn := by
  obtain ⟨layout', hex⟩ := h.extracted
  refine (accelerated_extractHotCold (fun j hj hmode => ?_) hex h.doAccel).1
  exact HotLayout.virtMap_isSome (h.keys _ (List.mem_map_of_mem (List.mem_range.mpr hj)) hmode)

theorem SentTxn.Ok.mem_keys (h : t.Ok L) {op : Op} (hop : op ∈ t.ops) : op.id ∈ L.keys := by
  refine h.keys op hop ?_
  obtain ⟨j, hj, rfl⟩ := List.mem_map.mp hop
  exact h.accelerated.modes j (List.mem_range.mp hj)

/-- The hot operations of the packet are operations as loaded, on hot keys of the layout. -/
theorem SentTxn.Ok.of_mem_hot (h : t.Ok L) {pr : HotOp} (hpr : pr ∈ t.txn.hot) :
    pr.1.id ∈ L.keys ∧ L.layout.isHot pr.1.id = true ∧ pr.2 = L.layout.location pr.1.id := by
  rw [h.accelerated.hot_eq] at hpr
  obtain ⟨op, hop, rfl⟩ := List.mem_map.mp hpr
  obtain ⟨hop, hhot⟩ := List.mem_filter.mp hop
  obtain ⟨j, hj, rfl⟩ := List.mem_map.mp hop
  have hkey : (t.loaded.coldOps j).id ∈ L.keys := h.mem_keys (List.mem_map_of_mem hj)
  exact ⟨hkey, hhot, rfl⟩

theorem SentTxn.Ok.inBlock (h : t.Ok L) : InBlock L.layout.blockNum t.txn.hot := by
  have hloc : ∀ pr ∈ t.txn.hot, _ := fun pr hpr =>
    let ⟨hmem, hhot, heq⟩ := h.of_mem_hot hpr
    heq ▸ HotLayout.location_of_hot hmem hhot
  exact ⟨h.accelerated.distinct, fun pr hpr => (hloc pr hpr).1, fun pr hpr => (hloc pr hpr).2.1,
    fun pr hpr => (hloc pr hpr).2.2⟩

/-- **Cells are keys.** On the cell of a hot key, the hot part of a sequence of operations has the
effect the whole sequence has on the key. -/
theorem cellAfter_hotPart {k : DbKey} (hk : k ∈ L.keys) (hhot : L.layout.isHot k = true)
    (v : BitVec 32) {ops : List Op} (hops : ∀ op ∈ ops, op.id ∈ L.keys) :
    cellAfter (L.layout.location k).regArrayId (L.layout.location k).regArrayIdx v
      (hotPart L.layout ops) = valueAfter k v ops := by
  induction ops generalizing v with
  | nil => rfl
  | cons op ops ih =>
    have hop := hops op List.mem_cons_self
    have ih := fun v => ih v fun op' hop' => hops op' (List.mem_cons_of_mem _ hop')
    rw [valueAfter, List.foldl_cons]
    by_cases hhot' : L.layout.isHot op.id = true
    · have hcell : (op.mode = .write ∧ (L.layout.location op.id).regArrayId =
          (L.layout.location k).regArrayId ∧ (L.layout.location op.id).regArrayIdx =
          (L.layout.location k).regArrayIdx) ↔ (op.mode = .write ∧ op.id = k) := by
        refine and_congr_right fun _ => ⟨fun h => ?_, fun h => h ▸ ⟨rfl, rfl⟩⟩
        exact HotLayout.eq_of_location_eq hop hk hhot' hhot h.1 h.2
      rw [hotPart, List.filter_cons, if_pos hhot', List.map_cons, cellAfter, List.foldl_cons]
      simp only [hcell]
      exact ih _
    · -- a cold operation is not on the hot key `k`
      have hne : ¬(op.mode = .write ∧ op.id = k) := fun h => hhot' (h.2 ▸ hhot)
      rw [if_neg hne, hotPart, List.filter_cons, if_neg hhot']
      exact ih v

theorem valueAfter_located (k : DbKey) (v : BitVec 32) (t : SentTxn) :
    valueAfter k v ((List.range nOps).map (located t.partInfo t.loaded)) =
      valueAfter k v t.ops := by
  rw [valueAfter, valueAfter, SentTxn.ops, List.foldl_map, List.foldl_map]
  rfl

theorem SentTxn.Ok.cellAfter_hot (h : t.Ok L) {k : DbKey} (hk : k ∈ L.keys)
    (hhot : L.layout.isHot k = true) (v : BitVec 32) :
    cellAfter (L.layout.location k).regArrayId (L.layout.location k).regArrayIdx v t.txn.hot =
      valueAfter k v t.ops := by
  rw [h.accelerated.hot_eq, cellAfter_hotPart hk hhot, valueAfter_located]
  intro op hop
  obtain ⟨j, hj, rfl⟩ := List.mem_map.mp hop
  have hkey : (t.loaded.coldOps j).id ∈ L.keys := h.mem_keys (List.mem_map_of_mem hj)
  exact hkey

theorem cellAfter_txns {txns : List SentTxn} (h : ∀ t ∈ txns, t.Ok L) {k : DbKey}
    (hk : k ∈ L.keys) (hhot : L.layout.isHot k = true) (v : BitVec 32) :
    cellAfter (L.layout.location k).regArrayId (L.layout.location k).regArrayIdx v
      (txns.flatMap fun t => t.txn.hot) = valueAfter k v (txns.flatMap SentTxn.ops) := by
  induction txns generalizing v with
  | nil => rfl
  | cons t txns ih =>
    rw [List.flatMap_cons, cellAfter_append, (h t List.mem_cons_self).cellAfter_hot hk hhot,
      ih fun t' ht' => h t' (List.mem_cons_of_mem _ ht'), List.flatMap_cons]
    exact (List.foldl_append).symm

/-- The packets of the transactions. -/
theorem makeTxn_txns {txns : List SentTxn} (h : ∀ t ∈ txns, t.Ok L) :
    ∃ ps : List (Txn × Buf),
      txns.mapM (fun t => makeTxn t.conf L.layout.blockNum t.txn t.buf) = some (ps.map Prod.snd) ∧
        ps.map Prod.fst = txns.map SentTxn.txn ∧
        ∀ p ∈ ps, InBlock L.layout.blockNum p.1.hot ∧
          Encoded p.2 (baseOffset L.layout.blockNum) p.1.hot := by
  induction txns with
  | nil => exact ⟨[], rfl, rfl, nofun⟩
  | cons t txns ih =>
    have ht := h t List.mem_cons_self
    obtain ⟨ps, hps, hfst, hok⟩ := ih fun t' ht' => h t' (List.mem_cons_of_mem _ ht')
    obtain ⟨pkt, hmake, henc⟩ :=
      makeTxn_encoded t.conf ht.doAccel ht.inBlock HotLayout.blockNum_lt t.buf
    refine ⟨(t.txn, pkt) :: ps, ?_, by rw [List.map_cons, List.map_cons, hfst], ?_⟩
    · rw [List.mapM_cons, hmake, hps]
      rfl
    · intro p hp
      rcases List.mem_cons.mp hp with rfl | hp
      · exact ⟨ht.inBlock, henc⟩
      · exact hok p hp

end Txns

/-! ### The whole period -/

/-- **The switch refines the store.** The start packets of all nodes, in any order, the packets of
accelerated transactions, in any order, and the end packets, in any order, all execute; and the read
of a key in an end packet returns the value of the last write to the key in the order of the
transactions, or else the table value of the key. -/
theorem end_reads_last_write (L : HotLayout) (C : Cluster) (bufs : ℕ → Buf)
    (gen : ℕ → StartEnd.State)
    (hgen : ∀ n < C.numNodes, genStartEndPackets (C.env n) ⟨0, bufs n⟩ L.layout = some (gen n))
    (txns : List SentTxn) (htxns : ∀ t ∈ txns, t.Ok L) (starts ends : List (Txn × Buf))
    (hstarts : starts.Perm ((List.range C.numNodes).flatMap fun n => (gen n).start.done))
    (hends : ends.Perm ((List.range C.numNodes).flatMap fun n => (gen n).fin.done))
    (regs : RegFile) :
    ∃ pkts regs₁ res₁ regs₂ res₂ regs₃ res₃,
      txns.mapM (fun t => makeTxn t.conf L.layout.blockNum t.txn t.buf) = some pkts ∧
      processAll regs (starts.map Prod.snd) = some (regs₁, res₁) ∧
      processAll regs₁ pkts = some (regs₂, res₂) ∧
      processAll regs₂ (ends.map Prod.snd) = some (regs₃, res₃) ∧
      List.Forall₂ (fun p re => ∀ pr ∈ p.1.hot, pr.1.mode = .read ∧
        re.instrs.d pr.2.regArrayId =
          valueAfter pr.1.id (C.tableValue pr.1.id) (txns.flatMap SentTxn.ops)) ends res₃ := by
  have hinv := fun n (hn : n < C.numNodes) => inv_of_gen hgen hn
  have hb := L.blockNum_lt
  have hpackets : ∀ (fill : StartEnd.State → Fill), (∀ n < C.numNodes, ∀ p ∈ (fill (gen n)).done,
      InBlock L.layout.blockNum p.1.hot ∧ Encoded p.2 (baseOffset L.layout.blockNum) p.1.hot) →
      ∀ ps : List (Txn × Buf),
        ps.Perm ((List.range C.numNodes).flatMap fun n => (fill (gen n)).done) → ∀ p ∈ ps,
        InBlock L.layout.blockNum p.1.hot ∧ Encoded p.2 (baseOffset L.layout.blockNum) p.1.hot := by
    intro fill hfill ps hps p hp
    obtain ⟨n, hn, hp⟩ := List.mem_flatMap.mp (hps.mem_iff.mp hp)
    exact hfill n (List.mem_range.mp hn) p hp
  obtain ⟨ps, hpkts, hfst, hok⟩ := makeTxn_txns htxns
  obtain ⟨regs₁, res₁, hrun₁, hcells₁, -⟩ := processAll_spec hb regs starts
    (hpackets State.start (fun n hn => (hinv n hn).start.packets) starts hstarts)
  obtain ⟨regs₂, res₂, hrun₂, hcells₂, -⟩ := processAll_spec hb regs₁ ps hok
  obtain ⟨regs₃, res₃, hrun₃, -, hreads⟩ := processAll_spec hb regs₂ ends
    (hpackets State.fin (fun n hn => (hinv n hn).fin.packets) ends hends)
  have hreads := hreads fun p hp pr hpr => by
    rw [(end_op hinv hends hp hpr).1]
    nofun
  refine ⟨ps.map Prod.snd, regs₁, res₁, regs₂, res₂, regs₃, res₃, hpkts, hrun₁, hrun₂, hrun₃, ?_⟩
  -- from here on, one end packet and one of its reads
  rw [List.forall₂_iff_zip] at hreads ⊢
  refine ⟨hreads.1, fun {p re} hmem pr hpr => ?_⟩
  obtain ⟨hmode, hloc, n, hn, hk⟩ := end_op hinv hends (List.of_mem_zip hmem).1 hpr
  obtain ⟨hkey, hhot, -⟩ := mem_blockKeys hk
  refine ⟨hmode, ?_⟩
  have hops : (ps.flatMap fun p => p.1.hot) = txns.flatMap fun t => t.txn.hot := by
    rw [← List.flatMap_map Prod.fst (fun x => Txn.hot x), hfst, List.flatMap_map]
  rw [hreads.2 hmem pr hpr, hloc, hcells₂, hcells₁, cellAfter_start hinv hstarts hn hk, hops,
    cellAfter_txns htxns hkey hhot]

/-- The keys 0 to 7, the smaller the hotter, in block 3. -/
def eightKeys : HotLayout :=
  HotLayout.ofIdFreq ((List.range 8).map fun k => (k, 8 - k)) 3 (by decide) (by decide) (by decide)

/-- Two nodes with a table of ten keys, in which key `k` has the value `100 + k`. -/
def twoNodes : Cluster where
  totalSize := 10
  numNodes := 2
  env n := ⟨⟨0, 0⟩, ⟨10, 2, n⟩, fun k => BitVec.ofNat 32 (100 + k), twoOps⟩
  partInfo_eq _ _ := rfl

/-- A transaction that writes key 0 and reads the keys 1 to 7. -/
def writeZero : Txn :=
  { twoOps with coldOps := fun j => ⟨j, default, if j = 0 then .write else .read, 55#32⟩ }

theorem gen_eightKeys (e : Env) (he : e.partInfo.totalSize = 10) (buf : Buf) :
    ∃ st, genStartEndPackets e ⟨0, buf⟩ eightKeys.layout = some st := by
  refine (genStartEndPackets_spec _ eightKeys.consistent HotLayout.blockNum_lt _).1.mpr ?_
  intro s hs r _ k hk
  obtain ⟨hrev, -⟩ := Option.filter_eq_some_iff.mp hk
  have hmem := (HotLayout.of_revLookup hs hrev).1
  have hall : ∀ k ∈ eightKeys.keys, k < 10 := by decide
  rw [he]
  exact hall k hmem

theorem extract_writeZero (i : Bool) :
    ∃ txn layout', extractHotCold maxPassesAccel ⟨10, 2, i.toNat⟩ writeZero eightKeys.layout =
      some (txn, layout') ∧ txn.doAccel = true := by
  have h : (extractHotCold maxPassesAccel ⟨10, 2, i.toNat⟩ writeZero eightKeys.layout).map
      (fun r => r.1.doAccel) = some true := by
    cases i <;> decide +kernel
  obtain ⟨⟨txn, layout'⟩, hex, haccel⟩ := Option.map_eq_some_iff.mp h
  exact ⟨txn, layout', hex, haccel⟩

theorem end_reads_last_write_twoNodes :
    ∃ (gen : ℕ → StartEnd.State) (t : SentTxn),
      (∀ n < twoNodes.numNodes, genStartEndPackets (twoNodes.env n) ⟨0, fun _ => 0⟩
        eightKeys.layout = some (gen n)) ∧ (∀ t' ∈ [t], t'.Ok eightKeys) ∧
      ∃ pkts regs₁ res₁ regs₂ res₂ regs₃ res₃,
        [t].mapM (fun t => makeTxn t.conf eightKeys.layout.blockNum t.txn t.buf) = some pkts ∧
        processAll (fun _ _ => 0)
          (((List.range twoNodes.numNodes).flatMap fun n => (gen n).start.done).map Prod.snd) =
            some (regs₁, res₁) ∧
        processAll regs₁ pkts = some (regs₂, res₂) ∧
        processAll regs₂
          (((List.range twoNodes.numNodes).flatMap fun n => (gen n).fin.done).map Prod.snd) =
            some (regs₃, res₃) ∧
        List.Forall₂ (fun p re => ∀ pr ∈ p.1.hot, pr.1.mode = .read ∧
          re.instrs.d pr.2.regArrayId =
            valueAfter pr.1.id (twoNodes.tableValue pr.1.id) ([t].flatMap SentTxn.ops))
          ((List.range twoNodes.numNodes).flatMap fun n => (gen n).fin.done) res₃ := by
  choose gen hgen using fun n => gen_eightKeys (twoNodes.env n) rfl fun _ => 0
  obtain ⟨txn, layout', hex, haccel⟩ := extract_writeZero false
  have hok : ∀ t ∈ [(⟨⟨10, 2, 0⟩, writeZero, txn, ⟨0, 0⟩, fun _ => 0⟩ : SentTxn)],
      t.Ok eightKeys := by
    intro t ht
    rw [List.mem_singleton.mp ht]
    refine ⟨⟨layout', hex⟩, haccel, fun op hop _ => ?_⟩
    obtain ⟨j, hj, rfl⟩ := List.mem_map.mp hop
    have hall : ∀ j < nOps, (writeZero.coldOps j).id ∈ eightKeys.keys := by decide
    exact hall j (List.mem_range.mp hj)
  exact ⟨gen, _, fun n _ => hgen n, hok, end_reads_last_write eightKeys twoNodes
    (fun _ _ => 0) gen (fun n _ => hgen n) _ hok _ _ (List.Perm.refl _) (List.Perm.refl _)
    (fun _ _ => 0)⟩

end P4db
