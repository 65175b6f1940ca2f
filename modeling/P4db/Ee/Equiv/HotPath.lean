import P4db.Ee.Equiv.SerialSwitch
import P4db.Ee.Equiv.SwitchOrder

/-!
# The hot path from the workers to the switch

The packets of both nodes meet at the switch.  Each node sends those that load the switch before the
first barrier of its hot period, its transactions between the barriers and those that read the
switch back before the last one, and the barriers keep the nodes together.  The network may change
the order of packets between two barriers.

* `Prepared`: where the packets come from.  A call of `my_execute` is for a transaction that
  `extract_hot_cold` accelerated with the layout of the batch, and a hot period sends what
  `gen_start_end_packets` makes of the table of its node.
* `Called`: what a run knows of the transactions of its calls.
* `HotPacket.map_split`: the switch gets the packets of a batch in three parts.
* `switch_runs_serially`: it runs the transactions of a batch one after the other on the tables of
  the nodes.
-/

namespace P4db

open SwitchInfo NewP4db StartEnd HotCold

variable {t : Attempt} {fills : Bool → List (Txn × Buf) × List (Txn × Buf)} {b : ℕ}

/-- The transaction of a call of `my_execute` on a node: as loaded, and as `extract_hot_cold` left
it, up to the fields that the executor sets. -/
structure SentTxn.IsOf (c : Config) (nid : ℕ) (L : HotLayout) (txn : Txn) (t : SentTxn) : Prop where
  partInfo : t.partInfo = c.part nid
  ok : t.Ok L
  owned : ∀ op ∈ t.ops, c.owner op.id < c.numNodes
  txn_eq : txn = { t.txn with id := txn.id, nAborts := txn.nAborts }

/-- The packet does not depend on what the executor sets. -/
theorem SentTxn.IsOf.makeTxn_eq {c : Config} {nid : ℕ} {L : HotLayout} {txn : Txn} {t : SentTxn}
    (h : t.IsOf c nid L txn) (conf : Macs) (blockNum : ℕ) (buf : Buf) :
    makeTxn conf blockNum txn buf = makeTxn conf blockNum t.txn buf := by
  rw [h.txn_eq]
  rfl

/-- `make_txn` makes the packet of a call, wherever it writes it. -/
theorem SentTxn.IsOf.exists_made {c : Config} {nid : ℕ} {txn : Txn} {st : SentTxn} (P : Loading)
    (hnum : P.C.numNodes = c.numNodes) (howner : ∀ k, P.C.owner k = c.owner k)
    (hst : st.IsOf c nid P.L txn) (conf : Macs) (old : Buf) :
    ∃ st' pkt, SentTxn.IsOf c nid P.L txn st' ∧ P.Made st' pkt ∧
      makeTxn conf P.L.layout.blockNum txn old = some pkt := by
  have hok : SentTxn.Ok P.L { st with conf := conf, buf := old } :=
    ⟨hst.ok.extracted, hst.ok.doAccel, hst.ok.keys⟩
  obtain ⟨pkt, hpkt, -⟩ :=
    makeTxn_encoded conf hok.doAccel hok.inBlock HotLayout.blockNum_lt old
  refine ⟨{ st with conf := conf, buf := old }, pkt,
    ⟨hst.partInfo, hok, hst.owned, hst.txn_eq⟩, ⟨hok, fun op hop => ?_, hpkt⟩, ?_⟩
  · rw [howner, hnum]
    exact hst.owned op hop
  · rw [hst.makeTxn_eq]
    exact hpkt

/-- The transaction that a call was made for. -/
def System.startedTxn (sys : System) (t : Attempt) : Option Txn :=
  (sys.started.find? fun e => e.1 = t).map fun e => e.2.1

theorem System.Recorded.startedTxn_eq {sys : System} (h : sys.Recorded) {txn : Txn}
    {mb : Option ℕ} (hmem : (t, txn, mb) ∈ sys.started) : sys.startedTxn t = some txn := by
  unfold System.startedTxn
  cases hfind : sys.started.find? fun e => e.1 = t with
  | none =>
    have hnot := List.find?_eq_none.mp hfind _ hmem
    exact absurd (decide_eq_true rfl) hnot
  | some e =>
    have heq : decide (e.1 = t) = true :=
      List.find?_some (p := fun e : Attempt × Txn × Option ℕ => decide (e.1 = t)) hfind
    have hsame := h.unique (List.mem_of_find?_eq_some hfind) hmem (of_decide_eq_true heq)
    rw [hsame]
    rfl

namespace Lockstep

open Transition

variable {n : Bool → UInt32} {c : Config}

/-! ### Where the packets come from -/

/-- What `gen_start_end_packets` makes of the table of the node. -/
def Generated {π : Type} (c : Config) (L : HotLayout) (s : State n π) (i : Bool)
    (fills : List (Txn × Buf) × List (Txn × Buf)) : Prop :=
  ∃ conf mem buf st, fills = (st.start.done, st.fin.done) ∧ genStartEndPackets
    ⟨conf, c.part i.toNat, fun k => (s.sys.rows (i.toNat, k)).tuple, mem⟩ ⟨0, buf⟩ L.layout =
      some st

/-- The calls of `my_execute` are for transactions that were accelerated with the layout of the
batch, and the hot periods load the table of their node and read it back. -/
def Prepared (c : Config) (L : ℕ → HotLayout) (s : State n (Txn × Buf)) :
    Action n (Txn × Buf) → Prop
  | .call i _ txn => ∃ t : SentTxn, t.IsOf c i.toNat (L (s.sys.batch i.toNat)) txn
  | .runHotPeriod i _ startFill endFill =>
    Generated c (L (s.sys.batch i.toNat)) s i (startFill, endFill)
  | _ => True

section Called

variable {s s' : State n (Txn × Buf)} {a : Action n (Txn × Buf)} {L : ℕ → HotLayout}

/-- The calls of `my_execute` that have begun. -/
def Called (c : Config) (L : ℕ → HotLayout) (s : State n (Txn × Buf)) : Prop :=
  ∀ t txn m b, (t, txn, some m) ∈ s.sys.started → roundsPerBatch * b + 1 ≤ m →
    m ≤ roundsPerBatch * (b + 1) → ∃ st : SentTxn, st.IsOf c t.worker.nid (L b) txn

theorem Called.move (h : Called c L s) (hinv : Inv s) (hp : Prepared c L s a)
    (hmove : Move c s a s') : Called c L s' := by
  rcases sys_of_move hmove with ⟨-, heq⟩ | ⟨b, hb, hsys⟩
  · rw [Called, heq]
    exact h
  rcases System.started_of_step hsys with heq | ⟨w, txn, id, mb, rfl, heq⟩
  · rw [Called, heq]
    exact h
  rw [Called, heq]
  intro t txn' m b' hmem hlow hhigh
  rcases List.mem_cons.mp hmem with hnew | hold
  · obtain ⟨rfl, rfl, rfl⟩ : t = ⟨w, _⟩ ∧ txn' = { txn with id := id } ∧ some m = mb := by
      simpa only [Prod.mk.injEq] using hnew
    cases hmove with
    | @call i u _ _ hmini _ =>
      obtain ⟨rfl, rfl, hround⟩ := System.Action.start.inj (Option.some.inj hb)
      obtain rfl := Option.some.inj hround
      -- the mini-batch is one of the batch that the node is in
      have hrange := hinv.barriers.range_of_inMiniBatch hmini
      obtain rfl : b' = s.sys.batch i.toNat := by
        rw [roundsPerBatch_eq] at *
        omega
      obtain ⟨st, hst⟩ := hp
      refine ⟨st, hst.partInfo, hst.ok, hst.owned, ?_⟩
      rw [hst.txn_eq]
    | leftover hpc hsys => cases hb
    | exec hinner hsys =>
      obtain rfl := Option.some.inj hb
      cases hinner
    | _ => cases hb
  · exact h t txn' m b' hold hlow hhigh

end Called

/-! ### The packets of a batch -/

/-- A packet on its way to the switch: its stage, and the packet itself or the call that it is the
packet of. -/
abbrev HotPacket := ℕ × (Txn × Buf ⊕ Attempt)

namespace HotPacket

/-- The packets that were sent alone, with their stages. -/
def alone (ps : List HotPacket) : List (ℕ × (Txn × Buf)) :=
  ps.filterMap fun p => p.2.getLeft?.map (Prod.mk p.1)

/-- The packets that were sent alone in a stage. -/
def aloneIn (k : ℕ) (ps : List HotPacket) : List (Txn × Buf) :=
  ((alone ps).filter fun p => p.1 = k).map Prod.snd

/-- The calls whose packets are in the list. -/
def calls (ps : List HotPacket) : List Attempt := ps.filterMap fun p => p.2.getRight?

/-- The bytes of a packet.  That of a call is what `make_txn` writes over the old contents. -/
def bytes (sys : System) (blockNum : ℕ) (conf : Attempt → Macs) (old : Attempt → Buf) :
    HotPacket → Option Buf
  | (_, .inl p) => some p.2
  | (_, .inr t) => (sys.startedTxn t).bind fun txn => makeTxn (conf t) blockNum txn (old t)

/-- Loading comes first, reading back last, and the transactions in between. -/
def InStage (p : HotPacket) : Prop :=
  p.2.elim (fun _ => p.1 = 0 ∨ p.1 = roundsPerBatch + 1) fun _ => 1 ≤ p.1 ∧ p.1 ≤ roundsPerBatch

variable {β : Type} {ps : List HotPacket} {f : Txn × Buf → β} {g : Attempt → β}

theorem aloneIn_cons_inl (k j : ℕ) (q : Txn × Buf) (ps : List HotPacket) :
    aloneIn k ((j, .inl q) :: ps) = if j = k then q :: aloneIn k ps else aloneIn k ps := by
  have halone : alone ((j, .inl q) :: ps) = (j, q) :: alone ps := rfl
  rw [aloneIn, aloneIn, halone, List.filter_cons]
  by_cases hj : j = k
  · rw [if_pos hj, if_pos (decide_eq_true hj), List.map_cons]
  · rw [if_neg hj, if_neg fun hd => hj (of_decide_eq_true hd)]

theorem aloneIn_zero_of_pos (h : ∀ p ∈ ps, 1 ≤ p.1) : aloneIn 0 ps = [] := by
  rw [aloneIn, List.map_eq_nil_iff, List.filter_eq_nil_iff]
  intro q hq hzero
  obtain ⟨p, hp, heq⟩ := List.mem_filterMap.mp hq
  obtain ⟨q', -, rfl⟩ := Option.map_eq_some_iff.mp heq
  exact absurd (of_decide_eq_true hzero) (Nat.ne_of_gt (h p hp))

theorem calls_of_last (h : ∀ p ∈ ps, InStage p) (hlast : ∀ p ∈ ps, roundsPerBatch + 1 ≤ p.1) :
    calls ps = [] := by
  rw [calls, List.filterMap_eq_nil_iff]
  rintro ⟨k, q | t⟩ hp
  · rfl
  · have hle : k ≤ roundsPerBatch := (h _ hp).2
    exact absurd (hlast _ hp) (Nat.not_le.mpr (Nat.lt_succ_of_le hle))

/-- Packets that come stage by stage. -/
theorem map_split (h : ∀ p ∈ ps, InStage p) (hsorted : ps.Pairwise fun p q => p.1 ≤ q.1) :
    ps.map (fun p => p.2.elim f g) =
      (aloneIn 0 ps).map f ++ ((calls ps).map g ++ (aloneIn (roundsPerBatch + 1) ps).map f) := by
  induction ps with
  | nil => rfl
  | cons p ps ih =>
    obtain ⟨hle, hsorted⟩ := List.pairwise_cons.mp hsorted
    have hps : ∀ q ∈ ps, InStage q := fun q hq => h q (List.mem_cons_of_mem _ hq)
    have hp := h p List.mem_cons_self
    rw [List.map_cons, ih hps hsorted]
    obtain ⟨k, q | t⟩ := p
    · have hcalls : calls ((k, .inl q) :: ps) = calls ps := rfl
      rw [aloneIn_cons_inl, aloneIn_cons_inl, hcalls]
      rcases hp with hk | hk
      · obtain rfl : k = 0 := hk
        rfl
      · -- nothing but reading back can come behind
        obtain rfl : k = roundsPerBatch + 1 := hk
        rw [if_pos rfl, if_neg (Nat.succ_ne_zero _),
          aloneIn_zero_of_pos fun p hp => (Nat.succ_pos _).trans_le (hle p hp),
          calls_of_last hps hle]
        rfl
    · -- loading is over when a transaction comes
      have hpos : ∀ p ∈ ps, 1 ≤ p.1 := fun p hp' => hp.1.trans (hle p hp')
      have hstart : aloneIn 0 ((k, .inr t) :: ps) = aloneIn 0 ps := rfl
      rw [hstart, aloneIn_zero_of_pos hpos]
      rfl

end HotPacket

/-- The packets that were sent together. -/
def Sending.wire (x : Sending (Txn × Buf)) : List HotPacket :=
  x.alone.map (fun p => (p.1, .inl p.2)) ++ x.event.txns.map fun t => (x.stage, .inr t)

/-- The packets of a batch, in the order in which they were sent. -/
def State.wire (s : State n (Txn × Buf)) (b : ℕ) : List HotPacket :=
  (s.sent.filter fun x => x.batch = b).flatMap Sending.wire

section Wire

variable {s : State n (Txn × Buf)} {F : ℕ → Bool → List (Txn × Buf) × List (Txn × Buf) → Prop}

/-- A call whose packet was sent. -/
theorem exists_sending_of_calls (ht : t ∈ HotPacket.calls (s.wire b)) :
    ∃ x ∈ s.sent, x.batch = b ∧ t ∈ x.event.txns := by
  obtain ⟨⟨k, q | t'⟩, hp, heq⟩ := List.mem_filterMap.mp ht
  · cases heq
  · obtain rfl := Option.some.inj heq
    obtain ⟨x, hx, hwire⟩ := List.mem_flatMap.mp hp
    obtain ⟨hx, hb⟩ := List.mem_filter.mp hx
    have hmem : t' ∈ x.event.txns ∧ x.stage = k := by
      simpa [Sending.wire] using hwire
    exact ⟨x, hx, of_decide_eq_true hb, hmem.1⟩

theorem Sent.inStage (h : Sent F s) {p : HotPacket} (hp : p ∈ s.wire b) : p.InStage := by
  obtain ⟨x, hx, hwire⟩ := List.mem_flatMap.mp hp
  obtain ⟨hx, hb⟩ := List.mem_filter.mp hx
  rcases List.mem_append.mp hwire with halone | htxn
  · obtain ⟨⟨k, q⟩, hq, rfl⟩ := List.mem_map.mp halone
    have hmem : (k, q) ∈ s.filled x.node x.batch := by
      refine List.mem_flatMap.mpr ⟨x, ?_, hq⟩
      simp [State.sentBy, hx]
    obtain ⟨fills, -, hstage⟩ := (h.fills x.node).of_mem hmem
    exact hstage.imp And.left And.left
  · obtain ⟨t, ht, rfl⟩ := List.mem_map.mp htxn
    exact h.sent.stage_of_txn hx ht

/-- What both nodes have sent alone. -/
theorem perm_filled (s : State n (Txn × Buf)) (b : ℕ) :
    (HotPacket.alone (s.wire b)).Perm (s.filled false b ++ s.filled true b) := by
  have halone : HotPacket.alone (s.wire b) =
      (s.sent.filter fun x => x.batch = b).flatMap Sending.alone := by
    rw [HotPacket.alone, State.wire, List.filterMap_flatMap]
    refine List.flatMap_congr fun x _ => ?_
    rw [Sending.wire, List.filterMap_append, List.filterMap_map, List.filterMap_map]
    have hleft : x.alone.filterMap ((fun p : HotPacket => p.2.getLeft?.map (Prod.mk p.1)) ∘
        fun p => (p.1, .inl p.2)) = x.alone := List.filterMap_some
    have hright : x.event.txns.filterMap ((fun p : HotPacket =>
        p.2.getLeft?.map (Prod.mk p.1)) ∘ fun t => (x.stage, .inr t)) = [] :=
      List.filterMap_eq_nil_iff.mpr fun _ _ => rfl
    rw [hleft, hright, List.append_nil]
  rw [halone]
  -- what one node has sent is the batch filtered by the node
  set l := s.sent.filter fun x => x.batch = b with hl
  have hnode : ∀ i, s.filled i b = (l.filter fun x => x.node = i).flatMap Sending.alone := by
    intro i
    rw [State.filled, State.sentBy, hl, List.filter_filter, List.filter_filter]
    congr 2
    funext x
    exact Bool.and_comm _ _
  have hsplit := List.filter_append_perm (fun x : Sending (Txn × Buf) => x.node = false) l
  have hneg : l.filter (fun x => !decide (x.node = false)) = l.filter fun x => x.node = true := by
    refine List.filter_congr fun x _ => ?_
    cases x.node <;> rfl
  rw [hneg] at hsplit
  rw [hnode, hnode, ← List.flatMap_append]
  exact (hsplit.flatMap_right Sending.alone).symm

/-- The packets that arrive in the first stage and in the last one. -/
theorem perm_aloneIn {arrived : List HotPacket} (harr : arrived.Perm (s.wire b))
    (hfills : ∀ i, s.filled i b = marked (fills i)) :
    (HotPacket.aloneIn 0 arrived).Perm ((fills false).1 ++ (fills true).1) ∧
      (HotPacket.aloneIn (roundsPerBatch + 1) arrived).Perm
        ((fills false).2 ++ (fills true).2) := by
  have hperm : (HotPacket.alone arrived).Perm _ := (harr.filterMap _).trans (perm_filled s b)
  rw [hfills, hfills] at hperm
  have hmarked : ∀ fl : List (Txn × Buf) × List (Txn × Buf),
      ((marked fl).filter fun p => p.1 = 0).map Prod.snd = fl.1 ∧
      ((marked fl).filter fun p => p.1 = roundsPerBatch + 1).map Prod.snd = fl.2 := by
    intro fl
    simp [marked, List.filter_map, Function.comp_def]
  constructor
  · refine ((hperm.filter fun p => p.1 = 0).map Prod.snd).trans ?_
    rw [List.filter_append, List.map_append, (hmarked _).1, (hmarked _).1]
  · refine ((hperm.filter fun p => p.1 = roundsPerBatch + 1).map Prod.snd).trans ?_
    rw [List.filter_append, List.map_append, (hmarked _).2, (hmarked _).2]

end Wire

/-! ### At the switch -/

/-- The value of a key in the table of its owner, when the hot period of the owner begins. -/
def tableAt {π : Type} (c : Config) (begun : Bool → State n π) (k : DbKey) : BitVec 32 :=
  ((begun (decide (c.owner k = 1))).sys.rows ((decide (c.owner k = 1)).toNat, k)).tuple

/-- What two nodes load. -/
theorem exists_loading {π : Type} (hc : c.numNodes = 2) {L : HotLayout} (hL : L.layout.Inverse)
    {begun : Bool → State n π} (hgen : ∀ i, Generated c L (begun i) i (fills i)) :
    ∃ P : Loading, P.L = L ∧ P.C.numNodes = 2 ∧ (∀ k, P.C.owner k = c.owner k) ∧
      P.C.tableValue = tableAt c begun ∧
      ((List.range P.C.numNodes).flatMap fun m => (P.gen m).start.done) =
        (fills false).1 ++ (fills true).1 ∧
      ((List.range P.C.numNodes).flatMap fun m => (P.gen m).fin.done) =
        (fills false).2 ++ (fills true).2 := by
  choose conf mem buf st hfills hgen using hgen
  have hnode : ∀ m < c.numNodes, (decide (m = 1)).toNat = m := by
    intro m hm
    obtain rfl | rfl : m = 0 ∨ m = 1 := by omega
    · rfl
    · rfl
  let C : Cluster :=
    { totalSize := c.maxSize
      numNodes := c.numNodes
      env := fun m => ⟨conf (decide (m = 1)), c.part (decide (m = 1)).toNat,
        fun k => ((begun (decide (m = 1))).sys.rows ((decide (m = 1)).toNat, k)).tuple,
        mem (decide (m = 1))⟩
      partInfo_eq := fun m hm => by
        dsimp only
        rw [hnode m hm]
        rfl }
  have howner : ∀ k, C.owner k = c.owner k := by
    intro k
    unfold Config.owner
    rfl
  refine ⟨⟨L, hL, C, fun m => buf (decide (m = 1)), fun m => st (decide (m = 1)),
    fun m _ => hgen (decide (m = 1))⟩, rfl, hc, howner, ?_, ?_, ?_⟩
  · funext k
    show (C.env (C.owner k)).table k = _
    rw [howner]
    rfl
  · show (List.range c.numNodes).flatMap _ = _
    rw [hc, hfills, hfills]
    exact congrArg (_ ++ ·) (List.append_nil _)
  · show (List.range c.numNodes).flatMap _ = _
    rw [hc, hfills, hfills]
    exact congrArg (_ ++ ·) (List.append_nil _)

/-- Packets that arrive stage by stage. -/
theorem runs_arrived {π : Type} (hc : c.numNodes = 2) {L : HotLayout} (hL : L.layout.Inverse)
    {begun : Bool → State n π} (hgen : ∀ i, Generated c L (begun i) i (fills i))
    {arrived : List HotPacket} (hstage : ∀ p ∈ arrived, p.InStage)
    (hsorted : arrived.Pairwise fun p q => p.1 ≤ q.1)
    (hstarts : (HotPacket.aloneIn 0 arrived).Perm ((fills false).1 ++ (fills true).1))
    (hends : (HotPacket.aloneIn (roundsPerBatch + 1) arrived).Perm
      ((fills false).2 ++ (fills true).2)) (sys : System)
    (hcalls : ∀ t ∈ HotPacket.calls arrived, ∃ txn, sys.startedTxn t = some txn ∧
      ∃ st : SentTxn, st.IsOf c t.worker.nid L txn) (conf : Attempt → Macs) (old : Attempt → Buf)
    (regs : RegFile) :
    ∃ made pkts regs' res₁ res₂ res₃ v,
      (∀ t ∈ HotPacket.calls arrived, ∃ txn, sys.startedTxn t = some txn ∧
        SentTxn.IsOf c t.worker.nid L txn (made t)) ∧
      arrived.mapM (HotPacket.bytes sys L.layout.blockNum conf old) = some pkts ∧
      processAll regs pkts = some (regs', res₁ ++ (res₂ ++ res₃)) ∧
      Serial (tableAt c begun) ((HotPacket.calls arrived).map made) res₂ v ∧
      List.Forall₂ (fun p re => ∀ pr ∈ p.1.hot,
        pr.1.mode = .read ∧ re.instrs.d pr.2.regArrayId = v pr.1.id)
        (HotPacket.aloneIn (roundsPerBatch + 1) arrived) res₃ := by
  obtain ⟨P, rfl, htwo, howner, htable, hstart, hfin⟩ := exists_loading hc hL hgen
  -- every call has a transaction as loaded, and a packet
  have hmade : ∀ t, ∃ (st : SentTxn) (pkt : Buf), t ∈ HotPacket.calls arrived → ∃ txn,
      sys.startedTxn t = some txn ∧ st.IsOf c t.worker.nid P.L txn ∧ P.Made st pkt ∧
      makeTxn (conf t) P.L.layout.blockNum txn (old t) = some pkt := by
    intro t
    by_cases ht : t ∈ HotPacket.calls arrived
    · obtain ⟨txn, htxn, st, hst⟩ := hcalls t ht
      obtain ⟨st', pkt, hmade⟩ := hst.exists_made P (htwo.trans hc.symm) howner (conf t) (old t)
      exact ⟨st', pkt, fun _ => ⟨txn, htxn, hmade⟩⟩
    · exact ⟨⟨c.part 0, default, default, conf t, old t⟩, old t, fun h => absurd h ht⟩
  choose made pkt hmade using hmade
  have hbytes : arrived.mapM (HotPacket.bytes sys P.L.layout.blockNum conf old) =
      some (arrived.map fun p => p.2.elim Prod.snd pkt) := by
    rw [mapM_eq_some_iff, List.map_map]
    refine List.map_congr_left fun p hp => ?_
    obtain ⟨k, q | t⟩ := p
    · rfl
    · have ht : t ∈ HotPacket.calls arrived := List.mem_filterMap.mpr ⟨_, hp, rfl⟩
      obtain ⟨txn, htxn, -, -, hpkt⟩ := hmade t ht
      show (sys.startedTxn t).bind _ = some (pkt t)
      rw [htxn]
      exact hpkt
  rw [← hstart] at hstarts
  rw [← hfin] at hends
  have hall : ∀ p ∈ (HotPacket.calls arrived).map (fun t => (made t, pkt t)), P.Made p.1 p.2 := by
    intro p hp
    obtain ⟨t, ht, rfl⟩ := List.mem_map.mp hp
    obtain ⟨-, -, -, hm, -⟩ := hmade t ht
    exact hm
  obtain ⟨regs', res₁, res₂, res₃, v, hproc, hser, hreads⟩ :=
    P.runs_serially hstarts hends hall regs
  rw [List.map_map] at hproc hser
  rw [htable] at hser
  refine ⟨made, _, regs', res₁, res₂, res₃, v, fun t ht => ?_, hbytes, ?_, hser, hreads⟩
  · obtain ⟨txn, htxn, hst, -⟩ := hmade t ht
    exact ⟨txn, htxn, hst⟩
  · rw [HotPacket.map_split hstage hsorted]
    exact hproc

/-- Everything that is known of a run. -/
structure Ran (c : Config) (store₀ : DbKey → BitVec 32)
    (F : ℕ → Bool → List (Txn × Buf) × List (Txn × Buf) → Prop) (L : ℕ → HotLayout)
    (s : State n (Txn × Buf)) : Prop where
  sent : Sent F s
  coupled : ∃ a, System.Coupled c store₀ s.sys a
  recorded : s.sys.Recorded
  carried : Carried s
  called : Called c L s

section Ran

variable {store₀ : DbKey → BitVec 32} {L : ℕ → HotLayout} {s s' : State n (Txn × Buf)}
  {F : ℕ → Bool → List (Txn × Buf) × List (Txn × Buf) → Prop} {a : Action n (Txn × Buf)}

theorem Ran.move (h : Ran c store₀ F L s) (hf : Filled s a) (hl : Loads F s a)
    (hp : Prepared c L s a) (hmove : Move c s a s') : Ran c store₀ F L s' := by
  obtain ⟨hcoupled, hrecorded⟩ : (∃ a, System.Coupled c store₀ s'.sys a) ∧ s'.sys.Recorded := by
    rcases sys_of_move hmove with ⟨-, heq⟩ | ⟨b, -, hsys⟩
    · rw [heq]
      exact ⟨h.coupled, h.recorded⟩
    · obtain ⟨a, hc⟩ := h.coupled
      obtain ⟨a', -, hc', hr'⟩ := hc.step h.recorded hsys
      exact ⟨⟨a', hc'⟩, hr'⟩
  exact ⟨h.sent.move hf hl hmove, hcoupled, hrecorded,
    h.carried.move h.sent.inv h.recorded h.sent.sent hmove, h.called.move h.sent.inv hp hmove⟩

/-- The packets of a batch are of calls in it. -/
theorem Ran.isOf (h : Ran c store₀ F L s) (ht : t ∈ HotPacket.calls (s.wire b)) :
    ∃ txn, s.sys.startedTxn t = some txn ∧ ∃ st : SentTxn, st.IsOf c t.worker.nid (L b) txn := by
  obtain ⟨x, hx, rfl, hxt⟩ := exists_sending_of_calls ht
  obtain ⟨txn, hmem⟩ := System.inBatch_iff.mp (h.carried.sent x hx t hxt)
  obtain ⟨hlow, hhigh⟩ := h.sent.sent.stage_of_txn hx hxt
  refine ⟨txn, h.recorded.startedTxn_eq hmem, h.called t txn _ x.batch hmem ?_ ?_⟩
  · exact Nat.add_le_add_left hlow _
  · exact Nat.add_le_add_left hhigh _

end Ran

/-- **The hot path is a serial store.**  Two nodes run with their barriers, every hot period begins
with a queue that is not empty, and the calls and the hot periods are `Prepared` with the layout
`L b` in batch `b`.  When a batch is over, let its packets arrive in any order that keeps the order
of the stages.  Then `make_txn` has made a packet for every transaction, and the switch can execute
all packets.  The transactions get what they would get one after the other, in the order in which
they arrive, on the tables as they were when the hot periods of their owners began, and the last
packets read the result. -/
theorem switch_runs_serially (c : Config) (hc : c.numNodes = 2) (value : ℕ → DbKey → BitVec 32)
    (mem : ℕ → ℕ → HotTxnEntry Attempt) (L : ℕ → HotLayout) (hL : ∀ b, (L b).layout.Inverse)
    (as : List (Action n (Txn × Buf))) (s : State n (Txn × Buf))
    (halong : AlongRun (step c) (fun s a => Filled s a ∧ Prepared c L s a)
      (State.init value mem) as)
    (hrun : run (step c) (State.init value mem) as = some s) (b : ℕ)
    (hb : ∀ i : Bool, b < s.sys.batch i.toNat) (arrived : List HotPacket)
    (harr : arrived.Perm (s.wire b)) (hsorted : arrived.Pairwise fun p q => p.1 ≤ q.1)
    (conf : Attempt → Macs) (old : Attempt → Buf) (regs : RegFile) :
    ∃ (begun : Bool → State n (Txn × Buf)) (fills : Bool → List (Txn × Buf) × List (Txn × Buf))
      (made : Attempt → SentTxn) (pkts : List Buf) (regs' : RegFile) (res₁ res₂ res₃ : List Result)
      (v : Store),
      (∀ i, BeginsHot c (State.init value mem) as i b (begun i) (fills i)) ∧
      (HotPacket.aloneIn 0 arrived).Perm ((fills false).1 ++ (fills true).1) ∧
      (HotPacket.aloneIn (roundsPerBatch + 1) arrived).Perm
        ((fills false).2 ++ (fills true).2) ∧
      (∀ t ∈ HotPacket.calls arrived, ∃ txn, s.sys.startedTxn t = some txn ∧
        SentTxn.IsOf c t.worker.nid (L b) txn (made t)) ∧
      arrived.mapM (HotPacket.bytes s.sys (L b).layout.blockNum conf old) = some pkts ∧
      processAll regs pkts = some (regs', res₁ ++ (res₂ ++ res₃)) ∧
      Serial (tableAt c begun) ((HotPacket.calls arrived).map made) res₂ v ∧
      List.Forall₂ (fun p re => ∀ pr ∈ p.1.hot,
        pr.1.mode = .read ∧ re.instrs.d pr.2.regArrayId = v pr.1.id)
        (HotPacket.aloneIn (roundsPerBatch + 1) arrived) res₃ := by
  set F : ℕ → Bool → List (Txn × Buf) × List (Txn × Buf) → Prop := fun b i fills =>
    ∃ s₁, BeginsHot c (State.init value mem) as i b s₁ fills ∧ Generated c (L b) s₁ i fills
  have h : Ran c (System.initStore c value) F L s := by
    refine run_invariant_of_along (fun t a _ h hP hstep => ?_)
      ⟨sent_init F value mem, ⟨_, System.coupled_init c value mem⟩,
        System.recorded_init value mem, carried_init value mem, nofun⟩
      (halong.and (alongRun_of_run _ as)) hrun
    obtain ⟨⟨hf, hp⟩, as₁, as₂, has, hrun₁⟩ := hP
    refine h.move hf ?_ hp (move_of_step hstep)
    cases a with
    | runHotPeriod i u startFill endFill => exact ⟨t, ⟨as₁, u, as₂, has, hrun₁, rfl⟩, hp⟩
    | _ => trivial
  choose fills hfills using fun i => (h.sent.fills i).past b (hb i)
  choose begun hbegins hgen using fun i => (hfills i).1
  obtain ⟨hstarts, hends⟩ := perm_aloneIn harr fun i => (hfills i).2
  obtain ⟨made, pkts, regs', res₁, res₂, res₃, v, hrest⟩ := runs_arrived hc (hL b) hgen
    (fun p hp => h.sent.inStage (harr.mem_iff.mp hp)) hsorted hstarts hends s.sys
    (fun t ht => h.isOf ((harr.filterMap _).mem_iff.mp ht)) conf old regs
  exact ⟨begun, fills, made, pkts, regs', res₁, res₂, res₃, v, hbegins, hstarts, hends, hrest⟩

/-! ### A batch -/

/-- Two nodes with tables of ten keys. -/
def tenKeys : Config := ⟨2, 10, 10⟩

/-- The transaction after `extract_hot_cold`. -/
@[irreducible] def hotWriteZero (i : Bool) : Txn :=
  ((extractHotCold maxPassesAccel (tenKeys.part i.toNat) writeZero eightKeys.layout).map
    Prod.fst).getD writeZero

/-- All rows hold 5. -/
def batchStart : State oneWorker (Txn × Buf) :=
  State.init (fun _ _ => 5) fun _ _ => ⟨⟨⟨0, 0⟩, 0⟩, 0, 0, 0⟩

/-- The mini-batches of a batch.  Each node runs one transaction in mini-batch 1. -/
def miniBatches : List (Action oneWorker (Txn × Buf)) :=
  [.main false, .main true] ++ leaveBoth ++ roundBoth ++
  .call false (theWorker false) (hotWriteZero false) ::
    List.replicate 5 (.exec (.thread ⟨0, 0⟩ false)) ++
  .call true (theWorker true) (hotWriteZero true) ::
    List.replicate 5 (.exec (.thread ⟨1, 0⟩ false)) ++
  (List.replicate 21 roundBoth).flatten

/-- Where the hot periods begin. -/
def beforeHot : State oneWorker (Txn × Buf) :=
  (run (step tenKeys) batchStart miniBatches).getD batchStart

/-- What `gen_start_end_packets` reads there. -/
def hotEnv (i : Bool) : Env :=
  ⟨⟨0, 0⟩, tenKeys.part i.toNat, fun k => (beforeHot.sys.rows (i.toNat, k)).tuple, writeZero⟩

/-- The packets that it makes. -/
def hotFills (i : Bool) : StartEnd.State :=
  (genStartEndPackets (hotEnv i) ⟨0, fun _ => 0⟩ eightKeys.layout).getD
    (StartEnd.State.init (hotEnv i) ⟨0, fun _ => 0⟩ eightKeys.layout)

/-- Both nodes take an event of their hot periods. -/
def eventBoth : List (Action oneWorker (Txn × Buf)) := [.hotEvent false, .hotEvent true]

/-- The rest of the hot periods.  Each node sends one packet before its transaction and one after
it. -/
def hotEvents : List (Action oneWorker (Txn × Buf)) :=
  eventBoth ++ (eventBoth ++ leaveBoth) ++ eventBoth ++
  (List.replicate 21 (eventBoth ++ leaveBoth)).flatten ++ eventBoth ++ (eventBoth ++ leaveBoth) ++
  [.doneSending false, .doneSending true]

/-- The batch. -/
def oneBatch : List (Action oneWorker (Txn × Buf)) :=
  miniBatches ++
    .runHotPeriod false (theWorker false) (hotFills false).start.done (hotFills false).fin.done ::
    .runHotPeriod true (theWorker true) (hotFills true).start.done (hotFills true).fin.done ::
    hotEvents

theorem isOf_hotWriteZero (i : Bool) :
    ∃ st : SentTxn, st.IsOf tenKeys i.toNat eightKeys (hotWriteZero i) := by
  obtain ⟨txn, layout', hex, haccel⟩ := extract_writeZero i
  have hget : ∀ o : Option (Txn × DeclusteredLayout), o = some (txn, layout') →
      (o.map Prod.fst).getD writeZero = txn := by
    rintro _ rfl
    rfl
  have htxn : hotWriteZero i = txn := by
    unfold hotWriteZero
    exact hget _ hex
  rw [htxn]
  refine ⟨⟨tenKeys.part i.toNat, writeZero, txn, ⟨0, 0⟩, fun _ => 0⟩, rfl,
    ⟨⟨layout', hex⟩, haccel, fun op hop _ => ?_⟩, fun op hop => ?_, rfl⟩
  · obtain ⟨j, hj, rfl⟩ := List.mem_map.mp hop
    have hall : ∀ j < nOps, (writeZero.coldOps j).id ∈ eightKeys.keys := by decide
    exact hall j (List.mem_range.mp hj)
  · obtain ⟨j, hj, rfl⟩ := List.mem_map.mp hop
    have hall : ∀ j < nOps, tenKeys.owner (writeZero.coldOps j).id < 2 := by decide +kernel
    exact hall j (List.mem_range.mp hj)

theorem prepared_oneBatch :
    AlongRun (step tenKeys) (Prepared tenKeys fun _ => eightKeys) batchStart oneBatch := by
  have hleave : ∀ a ∈ (leaveBoth : List (Action oneWorker (Txn × Buf))), ∀ s,
      Prepared tenKeys (fun _ => eightKeys) s a := by
    simp [leaveBoth, Prepared]
  have hround : ∀ a ∈ (roundBoth : List (Action oneWorker (Txn × Buf))), ∀ s,
      Prepared tenKeys (fun _ => eightKeys) s a := by
    simp only [roundBoth, List.mem_append, List.mem_replicate]
    rintro a ((((⟨-, rfl⟩ | ⟨-, rfl⟩) | ha) | ⟨-, rfl⟩) | ⟨-, rfl⟩)
    case inl.inl.inr => exact hleave a ha
    all_goals exact fun _ => trivial
  have hevent : ∀ a ∈ eventBoth, ∀ s, Prepared tenKeys (fun _ => eightKeys) s a := by
    simp [eventBoth, Prepared]
  refine (alongRun_of_forall (fun a ha s => ?_) _).append fun t hrun => ?_
  · simp only [miniBatches, List.mem_append, List.mem_cons, List.mem_replicate, List.mem_flatten,
      List.not_mem_nil, or_false] at ha
    rcases ha with
      (((((rfl | rfl) | ha) | ha) | rfl | ⟨-, rfl⟩) | rfl | ⟨-, rfl⟩) | ⟨l, ⟨-, rfl⟩, ha⟩
    · trivial
    · trivial
    · exact hleave a ha s
    · exact hround a ha s
    · exact isOf_hotWriteZero false
    · trivial
    · exact isOf_hotWriteZero true
    · trivial
    · exact hround a ha s
  · have ht : t = beforeHot := by
      rw [beforeHot, hrun]
      rfl
    have hgen : ∀ (s : State oneWorker (Txn × Buf)) (i : Bool), s.sys = beforeHot.sys →
        Generated tenKeys eightKeys s i ((hotFills i).start.done, (hotFills i).fin.done) := by
      intro s i hs
      obtain ⟨st, hst⟩ := gen_eightKeys (hotEnv i) rfl fun _ => 0
      have heq : hotFills i = st := by
        rw [hotFills, hst]
        rfl
      refine ⟨⟨0, 0⟩, writeZero, fun _ => 0, st, by rw [heq], ?_⟩
      rw [hs]
      exact hst
    subst ht
    intro s₁ hs₁
    refine ⟨hgen _ false rfl, fun s₂ hs₂ => ⟨hgen _ true ?_, ?_⟩⟩
    · cases move_of_step hs₁
      rfl
    · refine alongRun_of_forall (fun a ha s => ?_) _
      have hboth : a ∈ eventBoth ∨ a ∈ leaveBoth → Prepared tenKeys (fun _ => eightKeys) s a :=
        fun ha => ha.elim (hevent a · s) (hleave a · s)
      simp only [hotEvents, List.mem_append, List.mem_cons, List.mem_flatten, List.mem_replicate,
        List.not_mem_nil, or_false] at ha
      rcases ha with (((((ha | ha) | ha) | ⟨l, ⟨-, rfl⟩, ha⟩) | ha) | ha) | rfl | rfl
      · exact hevent a ha s
      · exact hboth ha
      · exact hevent a ha s
      · exact hboth (List.mem_append.mp ha)
      · exact hevent a ha s
      · exact hboth ha
      · trivial
      · trivial

theorem filled_oneBatch : AlongRun (step tenKeys) Filled batchStart oneBatch := by
  decide +kernel

theorem switch_runs_serially_oneBatch :
    ∃ s, AlongRun (step tenKeys) (fun s a => Filled s a ∧ Prepared tenKeys (fun _ => eightKeys) s a)
        batchStart oneBatch ∧
      run (step tenKeys) batchStart oneBatch = some s ∧ (∀ i : Bool, 0 < s.sys.batch i.toNat) ∧
      (HotPacket.calls (s.wire 0)).length = 2 ∧
      ∃ begun made pkts regs' res₁ res₂ res₃ v,
        (s.wire 0).mapM (HotPacket.bytes s.sys eightKeys.layout.blockNum (fun _ => ⟨0, 0⟩)
          fun _ _ => 0) = some pkts ∧
        processAll (fun _ _ => 0) pkts = some (regs', res₁ ++ (res₂ ++ res₃)) ∧
        Serial (tableAt (n := oneWorker) (π := Txn × Buf) tenKeys begun)
          ((HotPacket.calls (s.wire 0)).map made) res₂ v := by
  have hrun : (run (step tenKeys) batchStart oneBatch).map (fun s =>
      ((s.sys.batch 0, s.sys.batch 1), (s.wire 0).map Prod.fst,
        (HotPacket.calls (s.wire 0)).length)) = some ((1, 1), [0, 0, 1, 1, 22, 22], 2) := by
    decide +kernel
  obtain ⟨s, hs, heq⟩ := Option.map_eq_some_iff.mp hrun
  obtain ⟨⟨h0, h1⟩, hstages, hlen⟩ : (s.sys.batch 0 = 1 ∧ s.sys.batch 1 = 1) ∧
      (s.wire 0).map Prod.fst = [0, 0, 1, 1, 22, 22] ∧
      (HotPacket.calls (s.wire 0)).length = 2 := by
    simpa only [Prod.mk.injEq] using heq
  have hbatch : ∀ i : Bool, 0 < s.sys.batch i.toNat := by
    intro i
    cases i with
    | false => exact h0 ▸ Nat.one_pos
    | true => exact h1 ▸ Nat.one_pos
  have hsorted : (s.wire 0).Pairwise fun p q => p.1 ≤ q.1 := by
    rw [← List.pairwise_map (f := Prod.fst) (R := (· ≤ ·)), hstages]
    decide
  have halong := filled_oneBatch.and prepared_oneBatch
  obtain ⟨begun, -, made, pkts, regs', res₁, res₂, res₃, v, -, -, -, -, hpkts, hproc, hser, -⟩ :=
    switch_runs_serially tenKeys rfl _ _ (fun _ => eightKeys)
      (fun _ => HotLayout.inverse_ofIdFreq _ _ _) oneBatch s halong hs 0 hbatch (s.wire 0)
      (List.Perm.refl _) hsorted (fun _ => ⟨0, 0⟩) (fun _ _ => 0) fun _ _ => 0
  exact ⟨s, halong, hs, hbatch, hlen, begun, made, pkts, regs', res₁, res₂, res₃, v, hpkts, hproc,
    hser⟩

end Lockstep

end P4db
