import P4db.Ee.Equiv.Switch

/-!
# Decoding a reply

`process_reply_txn` copies the data of a returned packet into the table.  Behind the padded
instructions it does not subtract their number from the index, so it reads the data of another
register array.

* `replyData_eq`: the array that is read.
* `processReplyTxn_spec`: what the table holds afterwards.
* `reply_iff`: every row gets the data of its own register array, and the packet is not left,
  exactly when every operation is on a padded instruction, or on one whose data agree with those 20
  arrays further on.
-/

namespace P4db.SwitchInfo

variable {pkt : Buf}

/-! ### Packets that come back -/

/-- The packet with other data. -/
def withData (pkt : Buf) (d : ℕ → BitVec 32) : Buf :=
  (List.range nRegs).foldl (fun pkt r => storeData pkt r (d r)) pkt

theorem dataOf_foldl_storeData (d : ℕ → BitVec 32) (n r : ℕ) :
    dataOf ((List.range n).foldl (fun pkt r => storeData pkt r (d r)) pkt) r =
      if r < n then d r else dataOf pkt r := by
  induction n with
  | zero => simp
  | succ n ih =>
    rw [List.range_succ, List.foldl_append, List.foldl_cons, List.foldl_nil, dataOf_storeData, ih]
    by_cases hr : r = n
    · simp [hr]
    · have hiff : r < n + 1 ↔ r < n := by omega
      simp only [hr, ↓reduceIte, hiff]

theorem dataOf_withData (pkt : Buf) (d : ℕ → BitVec 32) {r : ℕ} (hr : r < nRegs) :
    dataOf (withData pkt d) r = d r :=
  (dataOf_foldl_storeData d nRegs r).trans (if_pos hr)

/-- The packet of a transaction, with the data that the switch put in. -/
def reply (conf : Macs) (blockNum : ℕ) (txn : Txn) (commPkt : Buf) (d : ℕ → BitVec 32) :
    Option Buf :=
  (makeTxn conf blockNum txn commPkt).map fun pkt => withData pkt d

/-! ### What is read -/

theorem replyInstrPos_eq (r : ℕ) :
    replyInstrPos r = if r < nInstrsPadded then instrPos r else instrPos (r + nInstrsPadded) := by
  unfold replyInstrPos instrPos
  split_ifs
  · rfl
  · omega
  · rw [Nat.add_sub_cancel]

theorem replyData_eq (pkt : Buf) (r : ℕ) :
    replyData pkt r = if r < nInstrsPadded then dataOf pkt r
      else dataOf pkt (r + nInstrsPadded) := by
  unfold replyData dataOf
  rw [replyInstrPos_eq]
  split_ifs <;> rfl

/-- A padded instruction is in the packet, and another one is if there are enough arrays behind
it. -/
theorem replyInstrPos_le_iff (r : ℕ) :
    replyInstrPos r + 5 ≤ hotTxnPktBytes ↔ r < nInstrsPadded ∨ r + nInstrsPadded < nRegs := by
  have hbytes : hotTxnPktBytes = 440 := rfl
  unfold replyInstrPos
  by_cases hr : r < nInstrsPadded
  · rw [if_pos hr]
    simp only [paddedInstrPos, baseOffsetPos, uidPos, nInstrsPadded] at hr ⊢
    omega
  · rw [if_neg hr]
    simp only [normalInstrPos, paddedInstrPos, baseOffsetPos, uidPos, nInstrsPadded, nRegs] at hr ⊢
    omega

/-! ### The table -/

section SetValue

variable {α : Type*} {size : ℕ} {key : α → DbKey} {val : α → BitVec 32} {ops : List α}

/-- The loop on rows of the table, each of which is written once. -/
theorem foldlM_setValue (val : α → BitVec 32) (table : DbKey → BitVec 32)
    (hsize : ∀ x ∈ ops, key x < size) (hkeys : (ops.map key).Nodup) :
    ∃ table', ops.foldlM (fun table x => setValue size table (key x) (val x)) table = some table' ∧
      (∀ x ∈ ops, table' (key x) = val x) ∧ ∀ k, k ∉ ops.map key → table' k = table k := by
  induction ops generalizing table with
  | nil => exact ⟨table, rfl, nofun, fun _ _ => rfl⟩
  | cons x ops ih =>
    rw [List.map_cons, List.nodup_cons] at hkeys
    obtain ⟨table', hrun, hvals, hframe⟩ := ih (Function.update table (key x) (val x))
      (fun y hy => hsize y (List.mem_cons_of_mem _ hy)) hkeys.2
    refine ⟨table', ?_, fun y hy => ?_, fun k hk => ?_⟩
    · rw [List.foldlM_cons]
      unfold setValue
      rw [if_pos (hsize x List.mem_cons_self)]
      exact hrun
    · rcases List.mem_cons.mp hy with rfl | hy
      · -- the later operations are on other keys
        rw [hframe _ hkeys.1, Function.update_self]
      · exact hvals y hy
    · rw [List.map_cons, List.mem_cons, not_or] at hk
      rw [hframe k hk.2, Function.update_of_ne hk.1]

/-- A row that differs afterwards was written. -/
theorem eq_or_exists_of_foldlM_setValue {table table' : DbKey → BitVec 32}
    (h : ops.foldlM (fun table x => setValue size table (key x) (val x)) table = some table')
    (k : DbKey) : table' k = table k ∨ ∃ x ∈ ops, key x = k ∧ table' k = val x := by
  induction ops generalizing table with
  | nil =>
    left
    rw [List.foldlM_nil] at h
    rw [Option.some.inj h]
  | cons x ops ih =>
    rw [List.foldlM_cons] at h
    obtain ⟨table₁, hset, hrest⟩ := Option.bind_eq_some_iff.mp h
    unfold setValue at hset
    rw [Option.ite_none_right_eq_some, Option.some.injEq] at hset
    rcases ih hrest with hkeep | ⟨y, hy, hkey, hval⟩
    · rw [hkeep, ← hset.2]
      by_cases hk : k = key x
      · right
        rw [hk, Function.update_self]
        exact ⟨x, List.mem_cons_self, rfl, rfl⟩
      · left
        exact Function.update_of_ne hk _ _
    · exact .inr ⟨y, List.mem_cons_of_mem x hy, hkey, hval⟩

end SetValue

section Reply

variable {conf : Macs} {b size : ℕ} {txn : Txn} {commPkt inPkt : Buf} {d : ℕ → BitVec 32}
  (hreply : reply conf b txn commPkt d = some inPkt) (hsize : ∀ pr ∈ txn.hot, pr.1.id < size)
  (hkeys : (txn.hot.map fun pr => pr.1.id).Nodup)
include hreply hsize hkeys

theorem processReplyTxn_spec (table : DbKey → BitVec 32) :
    ∃ table', processReplyTxn size txn inPkt true table = some table' ∧
      (∀ pr ∈ txn.hot, pr.2.regArrayId < nInstrsPadded ∨ pr.2.regArrayId + nInstrsPadded < nRegs →
        table' pr.1.id =
          d (if pr.2.regArrayId < nInstrsPadded then pr.2.regArrayId
            else pr.2.regArrayId + nInstrsPadded)) ∧
      ∀ k, k ∉ txn.hot.map (fun pr => pr.1.id) → table' k = table k := by
  obtain ⟨pkt, -, rfl⟩ := Option.map_eq_some_iff.mp hreply
  obtain ⟨table', hrun, hvals, hframe⟩ :=
    foldlM_setValue (fun pr : HotOp => replyData (withData pkt d) pr.2.regArrayId) table hsize hkeys
  refine ⟨table', hrun, fun pr hpr hin => ?_, hframe⟩
  rw [hvals pr hpr, replyData_eq]
  split_ifs with hpad
  · exact dataOf_withData pkt d (Nat.lt_trans hpad (by decide))
  · exact dataOf_withData pkt d (hin.resolve_left hpad)

/-- **Replies are not decoded as they are encoded.**  For hot operations on different keys of the
table, every row gets the data of its own register array, no other row changes and the packet is not
left exactly when every operation is on a padded instruction, or on one that is 20 arrays before
another with the same data. -/
theorem reply_iff (table : DbKey → BitVec 32) :
    (ReplyInRange txn ∧ ∃ table', processReplyTxn size txn inPkt true table = some table' ∧
        (∀ pr ∈ txn.hot, table' pr.1.id = d pr.2.regArrayId) ∧
        ∀ k, k ∉ txn.hot.map (fun pr => pr.1.id) → table' k = table k) ↔
      ∀ pr ∈ txn.hot, pr.2.regArrayId < nInstrsPadded ∨
        pr.2.regArrayId + nInstrsPadded < nRegs ∧ d (pr.2.regArrayId + nInstrsPadded) =
          d pr.2.regArrayId := by
  obtain ⟨table', hrun, hvals, hframe⟩ := processReplyTxn_spec hreply hsize hkeys table
  constructor
  · rintro ⟨hrange, table'', hrun', hvals', -⟩ pr hpr
    obtain rfl := Option.some.inj (hrun'.symm.trans hrun)
    have hin := (replyInstrPos_le_iff _).mp (hrange pr hpr)
    by_cases hpad : pr.2.regArrayId < nInstrsPadded
    · exact .inl hpad
    · have hval := hvals pr hpr hin
      rw [if_neg hpad, hvals' pr hpr] at hval
      exact .inr ⟨hin.resolve_left hpad, hval.symm⟩
  · intro h
    have hin : ∀ pr ∈ txn.hot, pr.2.regArrayId < nInstrsPadded ∨
        pr.2.regArrayId + nInstrsPadded < nRegs :=
      fun pr hpr => (h pr hpr).imp_right And.left
    refine ⟨fun pr hpr => (replyInstrPos_le_iff _).mpr (hin pr hpr), table', hrun,
      fun pr hpr => ?_, hframe⟩
    rw [hvals pr hpr (hin pr hpr)]
    split_ifs with hpad
    · rfl
    · exact ((h pr hpr).resolve_left hpad).2

end Reply

theorem exists_reply_twoOps (d : ℕ → BitVec 32) :
    ∃ inPkt, reply ⟨0, 0⟩ 1 twoOps (fun _ => 0#8) d = some inPkt := by
  obtain ⟨pkt, hmake, -⟩ := makeTxn_encoded ⟨0, 0⟩ rfl inBlock_twoOps (by decide) fun _ => 0#8
  refine ⟨withData pkt d, ?_⟩
  unfold reply
  rw [hmake]
  rfl

/-- With equal data it does not matter which are read. -/
theorem reply_constant :
    ∃ inPkt table', reply ⟨0, 0⟩ 1 twoOps (fun _ => 0#8) (fun _ => 6#32) = some inPkt ∧
    processReplyTxn 9 twoOps inPkt true (fun _ => 0#32) = some table' ∧
      ∀ pr ∈ twoOps.hot, table' pr.1.id = 6#32 := by
  obtain ⟨inPkt, hreply⟩ := exists_reply_twoOps fun _ => 6#32
  obtain ⟨-, table', hrun, hvals, -⟩ :=
    (reply_iff hreply (show ∀ pr ∈ twoOps.hot, pr.1.id < 9 by decide) (by decide) fun _ => 0#32).mpr
    (by decide)
  exact ⟨inPkt, table', hreply, hrun, hvals⟩

/-- Key 8 is on register array 30, but its row gets the data of array 50. -/
theorem not_reply_twoOps : ∃ inPkt table',
    reply ⟨0, 0⟩ 1 twoOps (fun _ => 0#8) (fun r => BitVec.ofNat 32 r) = some inPkt ∧
    processReplyTxn 9 twoOps inPkt true (fun _ => 0#32) = some table' ∧ table' 8 = 50#32 ∧
      ¬∀ pr ∈ twoOps.hot, table' pr.1.id = BitVec.ofNat 32 pr.2.regArrayId := by
  obtain ⟨inPkt, hreply⟩ := exists_reply_twoOps fun r => BitVec.ofNat 32 r
  obtain ⟨table', hrun, hvals, -⟩ := processReplyTxn_spec hreply
    (show ∀ pr ∈ twoOps.hot, pr.1.id < 9 by decide) (by decide) fun _ => 0#32
  have hmem : ((⟨8, ⟨true, 0⟩, .read, 0#32⟩, ⟨30, 40, 4, 1⟩) : HotOp) ∈ twoOps.hot := by decide
  have hval : table' 8 = 50#32 := hvals _ hmem (by decide)
  refine ⟨inPkt, table', hreply, hrun, hval, fun hall => ?_⟩
  have hwant : table' 8 = 30#32 := hall _ hmem
  rw [hval] at hwant
  revert hwant
  decide

end P4db.SwitchInfo
