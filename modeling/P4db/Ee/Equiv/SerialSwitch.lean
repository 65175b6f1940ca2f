import P4db.Ee.Equiv.Cover

/-!
# The switch as a serial store

What a batch does to the hot keys is meant to be this: its transactions run one after the other on
the table (`Serial`). The switch does it with packets.  Those that load it may come in any order,
and those that read it back, too; in between the order of the packets is the order of the
transactions.

* `serial_of_holds`: transactions on a register file that holds a store.
* `runs_serially`: a whole hot period.
-/

namespace P4db

open SwitchInfo NewP4db StartEnd HotCold

/-! ### The abstract store -/

/-- The value of every key. -/
abbrev Store := DbKey → BitVec 32

/-- The store after a transaction. -/
def SentTxn.apply (t : SentTxn) (v : Store) : Store := fun k => valueAfter k (v k) t.ops

/-- Transactions run one after the other from one store to another, and each gets for its hot keys
what the store holds when it comes. -/
inductive Serial : Store → List SentTxn → List Result → Store → Prop
  | nil (v : Store) : Serial v [] [] v
  | cons {v w : Store} {t : SentTxn} {txns : List SentTxn} {re : Result} {res : List Result}
      (returned : ∀ pr ∈ t.txn.hot, re.instrs.d pr.2.regArrayId = v pr.1.id)
      (rest : Serial (t.apply v) txns res w) :
      Serial v (t :: txns) (re :: res) w

/-! ### Packets -/

theorem processAll_append (regs : RegFile) (pkts pkts' : List Buf) {regs₁ regs₂ : RegFile}
    {res₁ res₂ : List Result} (h : processAll regs pkts = some (regs₁, res₁))
    (h' : processAll regs₁ pkts' = some (regs₂, res₂)) :
    processAll regs (pkts ++ pkts') = some (regs₂, res₁ ++ res₂) := by
  induction pkts generalizing regs res₁ with
  | nil =>
    obtain ⟨rfl, rfl⟩ := Prod.mk.inj (Option.some.inj h)
    exact h'
  | cons pkt pkts ih =>
    obtain ⟨re, hre, h⟩ := Option.bind_eq_some_iff.mp h
    obtain ⟨⟨regs', rest⟩, hrest, h⟩ := Option.bind_eq_some_iff.mp h
    obtain ⟨rfl, rfl⟩ := Prod.mk.inj (Option.some.inj h)
    rw [List.cons_append, processAll, hre, Option.bind_eq_bind, Option.bind_some, ih re.regs hrest]
    rfl

/-- What the two nodes load into the switch and read back in a hot period. -/
structure Loading where
  L : HotLayout
  inverse : L.layout.Inverse
  C : Cluster
  bufs : ℕ → Buf
  gen : ℕ → StartEnd.State
  gen_eq : ∀ n < C.numNodes, genStartEndPackets (C.env n) ⟨0, bufs n⟩ L.layout = some (gen n)

namespace Loading

variable (P : Loading)

/-- A transaction that was accelerated, whose keys have owners, and its packet. -/
structure Made (t : SentTxn) (pkt : Buf) : Prop where
  ok : t.Ok P.L
  owned : ∀ op ∈ t.ops, P.C.owner op.id < P.C.numNodes
  pkt_eq : makeTxn t.conf P.L.layout.blockNum t.txn t.buf = some pkt

/-- The register file holds the store on the keys that were loaded. -/
def Holds (regs : RegFile) (v : Store) : Prop :=
  ∀ k, ∀ n < P.C.numNodes, k ∈ blockKeys (P.C.env n) P.L.layout slotsPerSchedBlock →
    regs (P.L.layout.location k).regArrayId (P.L.layout.location k).regArrayIdx = v k

variable {P} {t : SentTxn} {pkt : Buf}

/-- The keys of the hot operations are among those that were loaded. -/
theorem Made.loaded (h : P.Made t pkt) {pr : HotOp} (hpr : pr ∈ t.txn.hot) :
    P.C.owner pr.1.id < P.C.numNodes ∧
      pr.1.id ∈ blockKeys (P.C.env (P.C.owner pr.1.id)) P.L.layout slotsPerSchedBlock := by
  obtain ⟨hkey, hhot, -⟩ := h.ok.of_mem_hot hpr
  have howner : P.C.owner pr.1.id < P.C.numNodes := by
    rw [h.ok.accelerated.hot_eq] at hpr
    obtain ⟨op, hop, rfl⟩ := List.mem_map.mp hpr
    obtain ⟨j, hj, rfl⟩ := List.mem_map.mp (List.mem_filter.mp hop).1
    exact h.owned (t.loaded.coldOps j) (List.mem_map_of_mem hj)
  refine ⟨howner, (mem_blockKeys_iff P.inverse P.L.block_lt).mpr
    ⟨⟨HotLayout.virtMap_isSome hkey, hhot⟩, ?_⟩⟩
  rw [P.C.partInfo_eq _ howner]
  exact decide_eq_true rfl

/-- One transaction. -/
theorem Made.process (h : P.Made t pkt) {regs : RegFile} {v : Store} (hregs : P.Holds regs v) :
    ∃ re, process regs pkt = some re ∧ (∀ pr ∈ t.txn.hot, re.instrs.d pr.2.regArrayId = v pr.1.id) ∧
      P.Holds re.regs (t.apply v) := by
  obtain ⟨pkt', hmake, henc⟩ :=
    makeTxn_encoded t.conf h.ok.doAccel h.ok.inBlock HotLayout.blockNum_lt t.buf
  obtain rfl := Option.some.inj (h.pkt_eq.symm.trans hmake)
  obtain ⟨re, hproc, hexec⟩ := process_encoded henc h.ok.inBlock HotLayout.blockNum_lt regs
  refine ⟨re, hproc, fun pr hpr => ?_, fun k n hn hk => ?_⟩
  · obtain ⟨howner, hk⟩ := h.loaded hpr
    rw [hexec.returned pr hpr, (h.ok.of_mem_hot hpr).2.2]
    exact hregs _ _ howner hk
  · obtain ⟨hkey, hhot, -⟩ := mem_blockKeys hk
    rw [hexec.regs_eq h.ok.inBlock, hregs k n hn hk, h.ok.cellAfter_hot hkey hhot]
    rfl

/-- The transactions, one after the other. -/
theorem serial_of_holds {made : List (SentTxn × Buf)} (hmade : ∀ p ∈ made, P.Made p.1 p.2)
    {regs : RegFile} {v : Store} (hregs : P.Holds regs v) :
    ∃ regs' res v', processAll regs (made.map Prod.snd) = some (regs', res) ∧
      Serial v (made.map Prod.fst) res v' ∧
      P.Holds regs' v' := by
  induction made generalizing regs v with
  | nil => exact ⟨regs, [], v, rfl, Serial.nil v, hregs⟩
  | cons p made ih =>
    obtain ⟨re, hproc, hret, hregs⟩ := (hmade p List.mem_cons_self).process hregs
    obtain ⟨regs', res, v', hall, hser, hregs'⟩ :=
      ih (fun p' hp' => hmade p' (List.mem_cons_of_mem _ hp')) hregs
    refine ⟨regs', re :: res, v', ?_, Serial.cons hret hser, hregs'⟩
    rw [List.map_cons, processAll, hproc, Option.bind_eq_bind, Option.bind_some, hall]
    rfl

theorem inv_gen (P : Loading) : ∀ n < P.C.numNodes, Inv (P.C.env n) P.L.layout slotsPerSchedBlock 0
    (blockKeys (P.C.env n) P.L.layout slotsPerSchedBlock) (P.gen n) :=
  fun _ hn => inv_of_gen P.gen_eq hn

/-- The start packets load the table. -/
theorem holds_of_start {starts : List (Txn × Buf)}
    (hstarts : starts.Perm ((List.range P.C.numNodes).flatMap fun n => (P.gen n).start.done))
    (regs : RegFile) :
    ∃ regs' res, processAll regs (starts.map Prod.snd) = some (regs', res) ∧
      P.Holds regs' P.C.tableValue := by
  have hps : ∀ p ∈ starts, InBlock P.L.layout.blockNum p.1.hot ∧
      Encoded p.2 (baseOffset P.L.layout.blockNum) p.1.hot := by
    intro p hp
    obtain ⟨n, hn, hp⟩ := List.mem_flatMap.mp (hstarts.mem_iff.mp hp)
    exact (P.inv_gen n (List.mem_range.mp hn)).start.packets p hp
  obtain ⟨regs', res, hrun, hcells, -⟩ := processAll_spec HotLayout.blockNum_lt regs starts hps
  refine ⟨regs', res, hrun, fun k n hn hk => ?_⟩
  rw [hcells, cellAfter_start P.inv_gen hstarts hn hk]

/-- The end packets read the store. -/
theorem reads_of_end {ends : List (Txn × Buf)}
    (hends : ends.Perm ((List.range P.C.numNodes).flatMap fun n => (P.gen n).fin.done))
    {regs : RegFile} {v : Store} (hregs : P.Holds regs v) :
    ∃ regs' res, processAll regs (ends.map Prod.snd) = some (regs', res) ∧
      List.Forall₂ (fun p re => ∀ pr ∈ p.1.hot, pr.1.mode = .read ∧
        re.instrs.d pr.2.regArrayId = v pr.1.id) ends res := by
  have hps : ∀ p ∈ ends, InBlock P.L.layout.blockNum p.1.hot ∧
      Encoded p.2 (baseOffset P.L.layout.blockNum) p.1.hot := by
    intro p hp
    obtain ⟨n, hn, hp⟩ := List.mem_flatMap.mp (hends.mem_iff.mp hp)
    exact (P.inv_gen n (List.mem_range.mp hn)).fin.packets p hp
  obtain ⟨regs', res, hrun, -, hreads⟩ := processAll_spec HotLayout.blockNum_lt regs ends hps
  have hreads := hreads fun p hp pr hpr => by
    rw [(end_op P.inv_gen hends hp hpr).1]
    nofun
  refine ⟨regs', res, hrun, ?_⟩
  rw [List.forall₂_iff_zip] at hreads ⊢
  refine ⟨hreads.1, fun {p re} hmem pr hpr => ?_⟩
  obtain ⟨hmode, hloc, n, hn, hk⟩ := end_op P.inv_gen hends (List.of_mem_zip hmem).1 hpr
  refine ⟨hmode, ?_⟩
  rw [hreads.2 hmem pr hpr, hloc]
  exact hregs _ n hn hk

/-- **A hot period runs the transactions serially.** -/
theorem runs_serially (P : Loading) {starts ends : List (Txn × Buf)}
    (hstarts : starts.Perm ((List.range P.C.numNodes).flatMap fun n => (P.gen n).start.done))
    (hends : ends.Perm ((List.range P.C.numNodes).flatMap fun n => (P.gen n).fin.done))
    {made : List (SentTxn × Buf)} (hmade : ∀ p ∈ made, P.Made p.1 p.2) (regs : RegFile) :
    ∃ regs' res₁ res₂ res₃ v,
      processAll regs (starts.map Prod.snd ++ (made.map Prod.snd ++ ends.map Prod.snd)) =
        some (regs', res₁ ++ (res₂ ++ res₃)) ∧
      Serial P.C.tableValue (made.map Prod.fst) res₂ v ∧
      List.Forall₂ (fun p re => ∀ pr ∈ p.1.hot, pr.1.mode = .read ∧
        re.instrs.d pr.2.regArrayId = v pr.1.id) ends res₃ := by
  obtain ⟨regs₁, res₁, hrun₁, hregs₁⟩ := holds_of_start hstarts regs
  obtain ⟨regs₂, res₂, v, hrun₂, hser, hregs₂⟩ := serial_of_holds hmade hregs₁
  obtain ⟨regs₃, res₃, hrun₃, hreads⟩ := reads_of_end hends hregs₂
  exact ⟨regs₃, res₁, res₂, res₃, v,
    processAll_append _ _ _ hrun₁ (processAll_append _ _ _ hrun₂ hrun₃), hser, hreads⟩

end Loading

end P4db
