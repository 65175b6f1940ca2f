import P4db.Ee.Equiv.Demote
import P4db.Ee.Equiv.Reply
import P4db.Ee.Equiv.SwitchGeneric

/-!
# Decoding a reply of two passes

The instructions of both passes stand one behind the other in the packet, but the operations are in
two arrays.  The second loop of `process_reply_txn` uses the index of the instruction for the
operation as well: it reads `hot_ops_pass2[off1+p]`, where the instruction was made from
`hot_ops_pass2[p]`.

* `processReplyTxnGeneric_eq`: both loops are one loop over the instructions.
* `replyGeneric_iff`: every row gets the data of its own instruction, whatever the data are, exactly
  when the entries of `hot_ops_pass2` that are read have the keys of those that were encoded.
* `not_replyGeneric_onePlusOne`: the data of the second pass in the row of key 0.
-/

namespace P4db.SwitchInfo

/-- The packet with other data. -/
def GenericPkt.withData (pkt : GenericPkt) (d : ℕ → BitVec 32) : GenericPkt :=
  { pkt with instrs := pkt.instrs.mapIdx fun i x => { x with data := d i } }

/-- The key of the row that gets the data of an instruction. -/
def replyKey (txn : Txn) (i : ℕ) : DbKey :=
  if i < txn.hot.length then (txn.hotOpsPass1 i).1.id else (txn.hotOpsPass2 i).1.id

/-- The key of the operation that an instruction was made from. -/
def sentKey (txn : Txn) (i : ℕ) : DbKey :=
  if i < txn.hot.length then (txn.hotOpsPass1 i).1.id
    else (txn.hotOpsPass2 (i - txn.hot.length)).1.id

theorem length_markStop (l : List MyP4db.RegInstr) : (MyP4db.markStop l).length = l.length := by
  cases l <;> rfl

theorem length_instrs_of_makeTxnGeneric {maxPasses : ℕ} {txn : Txn} {commPkt : InstrArray}
    {pkt : GenericPkt} (hpkt : makeTxnGeneric maxPasses txn commPkt = some pkt)
    (hlen : txn.hot.length + txn.hot2.length ≤ maxHotOps) (hone : ¬maxPasses > 1 → txn.hot2 = []) :
    txn.hot.length + txn.hot2.length < pkt.instrs.length := by
  have hroom : txn.hot.length + txn.hot2.length < commPkt.val.length := by
    rw [commPkt.property]
    omega
  obtain ⟨x, l, -, hfill⟩ := fillInstrs_eq hroom hone
  unfold makeTxnGeneric at hpkt
  rw [Option.ite_none_right_eq_some, hfill] at hpkt
  rw [← Option.some.inj hpkt.2]
  simp only [List.length_append, List.length_map, length_markStop, List.length_cons]
  omega

/-- One iteration, inside the packet. -/
theorem replyOp_withData {pkt : GenericPkt} {i : ℕ} (h : i < pkt.instrs.length) (size : ℕ)
    (d : ℕ → BitVec 32) (table : DbKey → BitVec 32) (pr : HotOp) :
    replyOp size (pkt.withData d) true table pr i = setValue size table pr.1.id (d i) := by
  have hget : (pkt.withData d).instrs[i]? = some { pkt.instrs[i] with data := d i } := by
    unfold GenericPkt.withData
    rw [List.getElem?_mapIdx, List.getElem?_eq_getElem h, Option.map_some]
  unfold replyOp
  rw [hget]
  rfl

/-- The second loop starts where the first ended, in the packet and in the operations. -/
theorem processReplyTxnGeneric_eq {txn : Txn} {pkt : GenericPkt}
    (hlen : txn.hot.length + txn.hot2.length ≤ maxHotOps)
    (hpkt : txn.hot.length + txn.hot2.length < pkt.instrs.length) (size : ℕ) (d : ℕ → BitVec 32)
    (table : DbKey → BitVec 32) :
    processReplyTxnGeneric size 2 txn (pkt.withData d) true table =
      (List.range (txn.hot.length + txn.hot2.length)).foldlM
        (fun table i => setValue size table (replyKey txn i) (d i)) table := by
  have hfirst : ∀ i ∈ List.range txn.hot.length, ∀ table : DbKey → BitVec 32,
      replyOp size (pkt.withData d) true table (txn.hotOpsPass1 i) i =
        setValue size table (replyKey txn i) (d i) := by
    intro i hi table
    rw [List.mem_range] at hi
    rw [replyOp_withData (by omega), replyKey, if_pos hi]
  have hsecond : ∀ i ∈ List.range txn.hot2.length, ∀ table : DbKey → BitVec 32,
      ((hotOpsPass2At txn (txn.hot.length + i)).bind fun pr =>
        replyOp size (pkt.withData d) true table pr (txn.hot.length + i)) =
        setValue size table (replyKey txn (txn.hot.length + i)) (d (txn.hot.length + i)) := by
    intro i hi table
    rw [List.mem_range] at hi
    have hin : txn.hot.length + i < maxOpsPass2Accel := by
      unfold maxHotOps at hlen
      unfold maxOpsPass2Accel
      omega
    rw [hotOpsPass2At, if_pos hin, Option.bind_some, replyOp_withData (by omega), replyKey,
      if_neg (by omega)]
  unfold processReplyTxnGeneric
  rw [List.range_add, List.foldlM_append]
  dsimp only
  rw [Transition.foldlM_congr hfirst]
  congr 1
  funext table₁
  rw [if_pos (by decide), List.foldlM_map]
  exact Transition.foldlM_congr hsecond table₁

/-! ### The table -/

theorem map_sentKey (txn : Txn) :
    (List.range (txn.hot.length + txn.hot2.length)).map (sentKey txn) =
    (txn.hot ++ txn.hot2).map fun pr => pr.1.id := by
  have hhot : txn.hot = (List.range txn.hot.length).map txn.hotOpsPass1 := terminated_eq_map _ _ _
  have hhot2 : txn.hot2 = (List.range txn.hot2.length).map txn.hotOpsPass2 :=
    terminated_eq_map _ _ _
  rw [List.range_add, List.map_append, List.map_append, List.map_map]
  conv_rhs => rw [hhot, hhot2, List.map_map, List.map_map]
  congr 1
  · apply List.map_congr_left
    intro i hi
    exact if_pos (List.mem_range.mp hi)
  · apply List.map_congr_left
    intro i _
    show sentKey txn (txn.hot.length + i) = (txn.hotOpsPass2 i).1.id
    rw [sentKey, if_neg (by omega), Nat.add_sub_cancel_left]

/-- Every row of the transaction has the data of its own instruction, and the other rows are as
before. -/
structure Decoded (txn : Txn) (d : ℕ → BitVec 32) (table table' : DbKey → BitVec 32) : Prop where
  pass1 : ∀ j < txn.hot.length, table' (txn.hotOpsPass1 j).1.id = d j
  pass2 : ∀ j < txn.hot2.length, table' (txn.hotOpsPass2 j).1.id = d (txn.hot.length + j)
  other : ∀ k, k ∉ (txn.hot ++ txn.hot2).map (fun pr => pr.1.id) → table' k = table k

/-- **Replies of two passes.**  For hot operations on different keys of the table, as many as the
packet holds, the data of every instruction come into the row of its operation, whatever they are,
exactly when `hot_ops_pass2` has the keys of the second pass once more, from the length of the first
pass on. -/
theorem replyGeneric_iff {size : ℕ} {txn : Txn} {commPkt : InstrArray} {pkt : GenericPkt}
    (hpkt : makeTxnGeneric 2 txn commPkt = some pkt)
    (hlen : txn.hot.length + txn.hot2.length ≤ maxHotOps)
    (hsize : ∀ pr ∈ txn.hot ++ txn.hot2, pr.1.id < size)
    (hkeys : ((txn.hot ++ txn.hot2).map fun pr => pr.1.id).Nodup) :
    (∀ d table, ∃ table', processReplyTxnGeneric size 2 txn (pkt.withData d) true table =
      some table' ∧
        Decoded txn d table table') ↔
      ∀ j < txn.hot2.length, (txn.hotOpsPass2 (txn.hot.length + j)).1.id =
        (txn.hotOpsPass2 j).1.id := by
  have hinstrs := length_instrs_of_makeTxnGeneric hpkt hlen (by omega)
  simp only [processReplyTxnGeneric_eq hlen hinstrs]
  constructor
  · intro h j hj
    -- data that tell the instructions apart, and a table without any of them
    obtain ⟨table', hrun, hdecoded⟩ := h (fun i => BitVec.ofNat 32 (i + 1)) fun _ => 0#32
    have hval := hdecoded.pass2 j hj
    unfold maxHotOps at hlen
    rcases eq_or_exists_of_foldlM_setValue hrun
      (txn.hotOpsPass2 j).1.id with hzero | ⟨i, hi, hkey, hdata⟩
    · have hnat := congrArg BitVec.toNat (hval.symm.trans hzero)
      rw [BitVec.toNat_ofNat, BitVec.toNat_zero] at hnat
      omega
    · have hnat := congrArg BitVec.toNat (hval.symm.trans hdata)
      rw [List.mem_range] at hi
      rw [BitVec.toNat_ofNat, BitVec.toNat_ofNat] at hnat
      obtain rfl : i = txn.hot.length + j := by omega
      rw [← hkey, replyKey, if_neg (by omega)]
  · intro h d table
    have hsame : ∀ i ∈ List.range (txn.hot.length + txn.hot2.length), replyKey txn i =
        sentKey txn i := by
      intro i hi
      rw [List.mem_range] at hi
      unfold replyKey sentKey
      split_ifs with hfirst
      · rfl
      · have hrow := h (i - txn.hot.length) (by omega)
        rwa [Nat.add_sub_cancel' (by omega)] at hrow
    have hmap : (List.range (txn.hot.length + txn.hot2.length)).map (replyKey txn) =
        (txn.hot ++ txn.hot2).map fun pr => pr.1.id := by
      rw [List.map_congr_left hsame, map_sentKey]
    have hrows : ∀ i ∈ List.range (txn.hot.length + txn.hot2.length), replyKey txn i < size := by
      intro i hi
      have hmem := List.mem_map_of_mem (f := replyKey txn) hi
      rw [hmap] at hmem
      obtain ⟨pr, hpr, heq⟩ := List.mem_map.mp hmem
      rw [← heq]
      exact hsize pr hpr
    obtain ⟨table', hrun, hvals, hframe⟩ := foldlM_setValue d table hrows (hmap ▸ hkeys)
    refine ⟨table', hrun, fun j hj => ?_, fun j hj => ?_, fun k hk => hframe k (hmap ▸ hk)⟩
    · have hval := hvals j (List.mem_range.mpr (by omega))
      rwa [replyKey, if_pos hj] at hval
    · have hval := hvals (txn.hot.length + j) (List.mem_range.mpr (by omega))
      rwa [replyKey, if_neg (by omega), h j hj] at hval

/-! ### One operation in each pass -/

/-- A transaction with a hot operation on key 4 in the first pass and one on key 5 in the second;
what stands in `hot_ops_pass2` behind its end has the key `stale`. -/
def onePlusOne (stale : DbKey) : Txn :=
  let op (k : DbKey) (mode : AccessMode) : HotOp := (⟨k, ⟨true, 0⟩, mode, 0⟩, ⟨3, 0, 0, 0⟩)
  { (default : Txn) with
    hotOpsPass1 := fun i => if i = 0 then op 4 .read else op 0 .invalid
    hotOpsPass2 := fun i => if i = 0 then op 5 .read else op stale .invalid
    doAccel := true }

theorem exists_makeTxnGeneric_onePlusOne (stale : DbKey) :
    ∃ pkt, makeTxnGeneric 2 (onePlusOne stale) zeroBuf = some pkt :=
  ⟨_, rfl⟩

/-- Behind the end of the second pass stands another entry for key 5. -/
theorem replyGeneric_iff_stale : ∃ pkt table', makeTxnGeneric 2 (onePlusOne 5) zeroBuf = some pkt ∧
    processReplyTxnGeneric 9 2 (onePlusOne 5) (pkt.withData fun i => BitVec.ofNat 32 (i + 6)) true
      (fun _ => 0) =
      some table' ∧ table' 4 = 6 ∧ table' 5 = 7 := by
  obtain ⟨pkt, hpkt⟩ := exists_makeTxnGeneric_onePlusOne 5
  obtain ⟨table', hrun, hdecoded⟩ := (replyGeneric_iff hpkt (by decide)
    (show ∀ pr ∈ (onePlusOne 5).hot ++ (onePlusOne 5).hot2, pr.1.id < 9 by decide)
    (by decide)).mpr (by decide)
    (fun i => BitVec.ofNat 32 (i + 6)) fun _ => 0
  exact ⟨pkt, table', hpkt, hrun, hdecoded.pass1 0 (by decide), hdecoded.pass2 0 (by decide)⟩

/-- With a cleared entry behind the second pass its data come into row 0, and row 5 is not set. -/
theorem not_replyGeneric_onePlusOne :
    ∃ pkt table', makeTxnGeneric 2 (onePlusOne 0) zeroBuf = some pkt ∧
    processReplyTxnGeneric 9 2 (onePlusOne 0) (pkt.withData fun i => BitVec.ofNat 32 (i + 6)) true
      (fun _ => 0) =
      some table' ∧ table' 0 = 7 ∧ table' 5 = 0 ∧
      ¬Decoded (onePlusOne 0) (fun i => BitVec.ofNat 32 (i + 6)) (fun _ => 0) table' := by
  obtain ⟨pkt, hpkt⟩ := exists_makeTxnGeneric_onePlusOne 0
  have hlen : (onePlusOne 0).hot.length + (onePlusOne 0).hot2.length ≤ maxHotOps := by decide
  have heq := processReplyTxnGeneric_eq hlen
    (length_instrs_of_makeTxnGeneric hpkt hlen (by omega)) 9
    (fun i => BitVec.ofNat 32 (i + 6)) fun _ => 0
  refine ⟨pkt, _, hpkt, heq, by decide, by decide, fun hdecoded => ?_⟩
  exact absurd (hdecoded.pass2 0 (by decide)) (by decide)

end P4db.SwitchInfo
