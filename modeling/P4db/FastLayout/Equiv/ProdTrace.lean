import Mathlib.Algebra.Ring.Nat
import P4db.FastLayout.ProdTrace
import P4db.Switch.Equiv.Passes

/-!
## The packet trace is what the switch executes

* `instrOf`: the instruction for an operation; `isPass_ops`: those of a pass are a pass of the
  switch, in order.
* `fillPass_first`, `fillPass_second`: what the encoder leaves in `reg_instrs`.
* `txnToSwFmt_eq`: the bytes, as a packet of the switch with something behind it.
* `txnToSwFmt_executes`: whatever the packet finds in the switch, it executes its passes one after
  the other.
* `not_txnToSwFmt_executes_empty`: a second pass without operations is rejected.
-/

namespace P4db.FastLayout

open MyP4db
  (Byte RegInstr Switch IsPass arranged packetOf clearStop markStop hasStop clearStop_markStop
  hasStop_nextOf_markStop)
open MyP4db.Wire (Result Fails Run travel passesOf run_travel)

/-! ### Operations -/

theorem mem_ops {pass : SwPassTxn} {o : ℕ × ℕ} (h : o ∈ pass.ops) :
    o.1 < nStages * regsPerStage := by
  obtain ⟨s, hs, ho⟩ := List.mem_flatMap.mp h
  obtain ⟨o', ho', rfl⟩ := List.mem_map.mp ho
  have hs := List.mem_range.mp hs
  have hr := (SwPassTxn.mem_opsAt.mp ho').1
  show s * regsPerStage + o'.1 < nStages * regsPerStage
  unfold nStages regsPerStage at *
  omega

/-- The operations of a pass are in the order of the registers. -/
theorem pairwise_ops (pass : SwPassTxn) : pass.ops.Pairwise fun o o' => o.1 < o'.1 := by
  unfold SwPassTxn.ops
  rw [List.pairwise_flatMap]
  constructor
  · intro s _
    rw [List.pairwise_map]
    apply (pass.pairwise_opsAt s).imp
    intro o o' hlt
    exact Nat.add_lt_add_left hlt _
  · apply List.pairwise_lt_range.imp
    rintro s s' hlt x hx y hy
    obtain ⟨o, ho, rfl⟩ := List.mem_map.mp hx
    obtain ⟨o', -, rfl⟩ := List.mem_map.mp hy
    have hr := (SwPassTxn.mem_opsAt.mp ho).1
    show s * regsPerStage + o.1 < s' * regsPerStage + o'.1
    unfold regsPerStage at *
    omega

/-- The instruction for an operation. -/
def instrOf (txnId : ℕ) (o : ℕ × ℕ) : RegInstr :=
  ⟨BitVec.ofNat 8 (o.1 + 1), 1, BitVec.ofNat 16 o.2, BitVec.ofNat 32 txnId⟩

/-- The instructions of a pass. -/
def instrsOf (txnId : ℕ) (pass : SwPassTxn) : List RegInstr := pass.ops.map (instrOf txnId)

theorem toNat_type_instrOf {txnId : ℕ} {o : ℕ × ℕ} (h : o.1 < nStages * regsPerStage) :
    (instrOf txnId o).type.toNat = o.1 + 1 := by
  show (BitVec.ofNat 8 (o.1 + 1)).toNat = o.1 + 1
  unfold nStages regsPerStage at h
  rw [BitVec.toNat_ofNat]
  omega

theorem pairwise_instrsOf (txnId : ℕ) (pass : SwPassTxn) :
    (instrsOf txnId pass).Pairwise fun x y => x.type.toNat < y.type.toNat := by
  unfold instrsOf
  rw [List.pairwise_map]
  apply (pairwise_ops pass).imp_of_mem
  intro o o' ho ho' hlt
  rw [toNat_type_instrOf (mem_ops ho), toNat_type_instrOf (mem_ops ho')]
  omega

theorem isPass_instrsOf (txnId : ℕ) (pass : SwPassTxn) : IsPass (instrsOf txnId pass) := by
  have htype : ∀ x ∈ instrsOf txnId pass, 0 < x.type.toNat ∧
      x.type.toNat ≤ nStages * regsPerStage := by
    intro x hx
    obtain ⟨o, ho, rfl⟩ := List.mem_map.mp hx
    rw [toNat_type_instrOf (mem_ops ho)]
    exact ⟨Nat.succ_pos _, mem_ops ho⟩
  apply MyP4db.isPass_of_types
  · exact fun x hx => (htype x hx).1
  · exact fun x hx => (htype x hx).2.trans (by decide)
  · apply List.pairwise_map.mpr
    apply (pairwise_instrsOf txnId pass).imp
    intro x y hlt heq
    rw [heq] at hlt
    exact lt_irrefl _ hlt

theorem arranged_instrsOf (txnId : ℕ) (pass : SwPassTxn) :
    arranged (instrsOf txnId pass) = instrsOf txnId pass :=
  MyP4db.arranged_eq (isPass_instrsOf txnId pass) (pairwise_instrsOf txnId pass)

/-! ### The encoder -/

theorem setInstr_zero (txnId : ℕ) (o : ℕ × ℕ) : setInstr txnId zeroInstr o = instrOf txnId o := by
  unfold setInstr instrOf zeroInstr
  simp

/-- The instruction after a pass. -/
def stopInstr : RegInstr := { zeroInstr with type := stop }

/-- A pass that is filled into the entries `old`. -/
theorem fillPass_eq (txnId : ℕ) {pass : SwPassTxn} {old : List RegInstr}
    (h : pass.ops.length = old.length) (l : List RegInstr) (x : RegInstr) (rest : List RegInstr) :
    fillPass txnId (l ++ (old ++ x :: rest), l.length) pass = some
      (l ++ List.zipWith (setInstr txnId) old pass.ops ++ { x with type := stop } :: rest,
        l.length + pass.ops.length) := by
  have hle : pass.ops.length ≤ (old ++ x :: rest).length := by
    rw [List.length_append]
    omega
  have hdrop : (old ++ x :: rest).drop pass.ops.length = x :: rest := by
    rw [h, List.drop_left]
  have hzip : List.zipWith (setInstr txnId) (old ++ x :: rest) pass.ops =
      List.zipWith (setInstr txnId) old pass.ops := by
    have happend : List.zipWith (setInstr txnId) (old ++ x :: rest) (pass.ops ++ []) =
        List.zipWith (setInstr txnId) old pass.ops ++ List.zipWith (setInstr txnId)
          (x :: rest) [] :=
      List.zipWith_append h.symm
    rw [List.append_nil, List.zipWith_nil_right, List.append_nil] at happend
    exact happend
  have hlen : l.length + pass.ops.length =
      (l ++ List.zipWith (setInstr txnId) old pass.ops).length := by
    rw [List.length_append, List.length_zipWith, h, Nat.min_self]
  unfold fillPass fillInstr endPass
  rw [Fill.foldlM_put _ hle, hdrop, hzip, Option.bind_eq_bind, Option.bind_some, hlen,
    Fill.modify_length]
  rfl

/-- The first pass. -/
theorem fillPass_first (txnId : ℕ) (pass : SwPassTxn) (n : ℕ) :
    fillPass txnId (List.replicate (pass.ops.length + (n + 1)) zeroInstr, 0) pass = some
      (instrsOf txnId pass ++ stopInstr :: List.replicate n zeroInstr,
        (instrsOf txnId pass).length) := by
  have hzip : List.zipWith (setInstr txnId) (List.replicate pass.ops.length zeroInstr) pass.ops =
      instrsOf txnId pass := by
    apply Fill.zipWith_eq_map
    · intro y hy o
      rw [List.eq_of_mem_replicate hy]
      exact setInstr_zero txnId o
    · rw [List.length_replicate]
  have hlen : pass.ops.length = (List.replicate pass.ops.length zeroInstr).length :=
    List.length_replicate.symm
  have hfill := fillPass_eq txnId hlen [] zeroInstr (List.replicate n zeroInstr)
  rw [hzip, List.nil_append, List.nil_append, List.length_nil, Nat.zero_add] at hfill
  rw [List.replicate_add, List.replicate_succ, hfill, instrsOf, List.length_map]
  rfl

/-- Another pass, which starts at the stop bit. -/
theorem fillPass_second (txnId : ℕ) (l : List RegInstr) (pass : SwPassTxn) (hne : pass.ops ≠ [])
    (n : ℕ) :
    fillPass txnId (l ++ stopInstr :: List.replicate (pass.ops.length + n) zeroInstr,
      l.length) pass = some
      (l ++ markStop (instrsOf txnId pass) ++ stopInstr :: List.replicate n zeroInstr,
        l.length + pass.ops.length) := by
  obtain ⟨o, ops, hops⟩ := List.exists_cons_of_ne_nil hne
  have hlen : pass.ops.length = (stopInstr :: List.replicate ops.length zeroInstr).length := by
    rw [hops, List.length_cons, List.length_cons, List.length_replicate]
  have hzip : List.zipWith (setInstr txnId)
      (stopInstr :: List.replicate ops.length zeroInstr) pass.ops =
      markStop (instrsOf txnId pass) := by
    rw [instrsOf, hops, List.zipWith_cons_cons, Fill.zipWith_eq_map (g := instrOf txnId)]
    · rfl
    · intro y hy o
      rw [List.eq_of_mem_replicate hy]
      exact setInstr_zero txnId o
    · rw [List.length_replicate]
  have hsum : pass.ops.length + n = ops.length + (n + 1) := by
    rw [hops, List.length_cons]
    omega
  have hfill := fillPass_eq txnId hlen l zeroInstr (List.replicate n zeroInstr)
  rw [hzip, List.cons_append] at hfill
  rw [hsum, List.replicate_add, List.replicate_succ, hfill]
  rfl

/-! ### The packet -/

/-- The lock information of the packet. -/
def lockInfoOf (txn : SwTxn) : MyP4db.LockInfo := ⟨txn.locksCheck, txn.locksWanted, 0, 0, 0⟩

/-- The packet of the switch, if the array ends with the stop bit. -/
theorem bytes_stopInstr (txn : SwTxn) (xs rest l : List RegInstr) :
    Packet.bytes ⟨txn.locksCheck, txn.locksWanted, 0, 0, 0, xs ++ rest ++ stopInstr :: l⟩ =
      (packetOf (lockInfoOf txn) [] xs rest stop).bytes ++
      (stopInstr.body ++ l.flatMap RegInstr.bytes) :=
  MyP4db.bytes_packetOf (lockInfoOf txn) xs rest stopInstr l

theorem txnToSwFmt_one {txn : SwTxn} {pass : SwPassTxn} (h : txn.passes = [pass])
    (hlen : pass.ops.length ≤ nMaxHotOps) (txnId : ℕ) : ∃ tail, txnToSwFmt txn txnId =
      some ((packetOf (lockInfoOf txn) [] (instrsOf txnId pass) [] stop).bytes ++ tail) := by
  obtain ⟨n, hn⟩ : ∃ n, 1 + nMaxHotOps = pass.ops.length + (n + 1) :=
    ⟨nMaxHotOps - pass.ops.length, by omega⟩
  refine ⟨stopInstr.body ++ (List.replicate n zeroInstr).flatMap RegInstr.bytes, ?_⟩
  unfold txnToSwFmt
  rw [h, List.foldlM_cons, hn, fillPass_first, ← bytes_stopInstr, List.append_nil]
  rfl

theorem txnToSwFmt_two {txn : SwTxn} {first second : SwPassTxn} (h : txn.passes = [first, second])
    (hne : second.ops ≠ []) (hlen : first.ops.length + second.ops.length ≤ nMaxHotOps) (txnId : ℕ) :
    ∃ tail, txnToSwFmt txn txnId = some
      ((packetOf (lockInfoOf txn) [] (instrsOf txnId first)
        (markStop (instrsOf txnId second)) stop).bytes ++
        tail) := by
  obtain ⟨n, hn⟩ : ∃ n, 1 + nMaxHotOps = first.ops.length + (second.ops.length + n + 1) :=
    ⟨nMaxHotOps - first.ops.length - second.ops.length, by omega⟩
  have hfold : [first, second].foldlM (fillPass txnId)
      (List.replicate (1 + nMaxHotOps) zeroInstr, 0) = some
      (instrsOf txnId first ++ markStop (instrsOf txnId second) ++ stopInstr ::
        List.replicate n zeroInstr, (instrsOf txnId first).length + second.ops.length) := by
    rw [hn, List.foldlM_cons, fillPass_first, Option.bind_eq_bind, Option.bind_some,
      List.foldlM_cons, fillPass_second txnId _ second hne]
    rfl
  refine ⟨stopInstr.body ++ (List.replicate n zeroInstr).flatMap RegInstr.bytes, ?_⟩
  unfold txnToSwFmt
  rw [h, hfold, ← bytes_stopInstr]
  rfl

/-! ### Execution -/

/-- A traversal that writes `txnId` to every register and slot of a pass, and does nothing else. -/
structure Writes (id txnId : ℕ) (pass : SwPassTxn) (r : Switch × Result) : Prop where
  doAccess : r.2.verdict.doAccess = true
  log : r.2.log.map (fun a => (a.txn, a.item.1, a.item.2.toNat, a.write)) =
    pass.ops.map fun o => (id, o.1, o.2, some (BitVec.ofNat 32 txnId))
  regs : ∀ i idx, r.2.sw.reg (i, idx) =
    if (i, idx.toNat) ∈ pass.ops then BitVec.ofNat 32 txnId else r.1.reg (i, idx)

/-- The sizes of the register arrays. -/
def maxSlots : ℕ := 32768

theorem writes_of_executes {id txnId : ℕ} {pass : SwPassTxn} {r : Switch × Result}
    (hslots : ∀ o ∈ pass.ops, o.2 < maxSlots)
    (h : MyP4db.Wire.Executes id (instrsOf txnId pass) r.1 r.2) : Writes id txnId pass r := by
  have hlog : r.2.log = pass.ops.map fun o => MyP4db.accessAt id r.1.reg o.1 (instrOf txnId o) := by
    rw [h.log, arranged_instrsOf, instrsOf, List.map_map]
    apply List.map_congr_left
    intro o ho
    show MyP4db.accessAt id r.1.reg ((instrOf txnId o).type.toNat - 1) (instrOf txnId o) = _
    rw [toNat_type_instrOf (mem_ops ho), Nat.add_sub_cancel]
  have hslot : ∀ o ∈ pass.ops, (BitVec.ofNat 16 o.2).toNat = o.2 := by
    intro o ho
    have hlt := hslots o ho
    unfold maxSlots at hlt
    rw [BitVec.toNat_ofNat]
    omega
  constructor
  · exact h.doAccess
  · rw [hlog, List.map_map]
    apply List.map_congr_left
    intro o ho
    show (id, o.1, (BitVec.ofNat 16 o.2).toNat, some (BitVec.ofNat 32 txnId)) = _
    rw [hslot o ho]
  · intro i idx
    have hwrite : ∀ a ∈ r.2.log, a.write = some (BitVec.ofNat 32 txnId) := by
      rw [hlog]
      intro a ha
      obtain ⟨o, -, rfl⟩ := List.mem_map.mp ha
      rfl
    have hmem : (i, idx) ∈ r.2.log.map Conflict.Access.item ↔ (i, idx.toNat) ∈ pass.ops := by
      rw [hlog, List.map_map, List.mem_map]
      constructor
      · rintro ⟨o, ho, heq⟩
        obtain ⟨rfl, rfl⟩ := Prod.mk.inj heq
        show (o.1, (BitVec.ofNat 16 o.2).toNat) ∈ pass.ops
        rw [hslot o ho]
        exact ho
      · intro ho
        refine ⟨_, ho, ?_⟩
        show (i, BitVec.ofNat 16 idx.toNat) = (i, idx)
        rw [BitVec.ofNat_toNat, BitVec.setWidth_eq]
    rw [h.regs, Conflict.replay_of_forall_write hwrite]
    simp only [hmem]

/-- The bytes of a transaction are a packet of the switch: `rest` are the instructions of its second
pass, if there is one. -/
theorem txnToSwFmt_eq {txn : SwTxn} (hpasses : txn.passes.length = 1 ∨ txn.passes.length = 2)
    (hops : (txn.passes.map fun p => p.ops.length).sum ≤ nMaxHotOps)
    (hlocks : txn.locksWanted ≠ 0 ↔ txn.passes.length = 2)
    (hsecond : ∀ pass, txn.passes[1]? = some pass → pass.ops ≠ []) (txnId : ℕ) :
    ∃ first rest tail, txn.passes.head? = some first ∧
      txnToSwFmt txn txnId =
        some ((packetOf (lockInfoOf txn) [] (instrsOf txnId first) rest stop).bytes ++ tail) ∧
      hasStop (MyP4db.nextOf stop rest) = true ∧
      (txn.locksWanted ≠ 0 → rest ≠ [] ∧ IsPass (clearStop rest)) ∧
      passesOf txn.locksWanted (instrsOf txnId first) rest = txn.passes.map (instrsOf txnId) := by
  rcases hpasses with hone | htwo
  · obtain ⟨first, hfirst⟩ := List.length_eq_one_iff.mp hone
    have hwanted : txn.locksWanted = 0 := by
      by_contra hne
      have := hlocks.mp hne
      omega
    rw [hfirst, List.map_singleton, List.sum_singleton] at hops
    obtain ⟨tail, htail⟩ := txnToSwFmt_one hfirst hops txnId
    refine ⟨first, [], tail, ?_, htail, rfl, fun hne => absurd hwanted hne, ?_⟩
    · rw [hfirst]
      rfl
    · rw [hfirst, passesOf, if_pos hwanted]
      rfl
  · obtain ⟨first, second, hfirst⟩ := List.length_eq_two.mp htwo
    have hne : second.ops ≠ [] := hsecond second (by rw [hfirst]; rfl)
    have hys := isPass_instrsOf txnId second
    rw [hfirst, List.map_cons, List.sum_cons, List.map_singleton, List.sum_singleton] at hops
    obtain ⟨tail, htail⟩ := txnToSwFmt_two hfirst hne hops txnId
    refine ⟨first, markStop (instrsOf txnId second), tail, ?_, htail, hasStop_nextOf_markStop _,
      fun _ => ⟨?_, ?_⟩, ?_⟩
    · rw [hfirst]
      rfl
    · unfold instrsOf
      obtain ⟨o, ops, heq⟩ := List.exists_cons_of_ne_nil hne
      rw [heq]
      exact List.cons_ne_nil _ _
    · rw [clearStop_markStop hys]
      exact hys
    · rw [hfirst, passesOf, if_neg (hlocks.mpr htwo), clearStop_markStop hys]
      rfl

/-- **The packet trace.**  Whatever a packet of the trace finds in the switch in each of its
traversals, it is never rejected.  It executes the passes of the transaction one after the other,
each in one traversal, after some traversals that access nothing; if its locks are free, there are
none of these. -/
theorem txnToSwFmt_executes {txn : SwTxn} (hpasses : txn.passes.length = 1 ∨ txn.passes.length = 2)
    (hops : (txn.passes.map fun p => p.ops.length).sum ≤ 7)
    (hlocks : txn.locksWanted ≠ 0 ↔ txn.passes.length = 2)
    (hslots : ∀ pass ∈ txn.passes, ∀ o ∈ pass.ops, o.2 < maxSlots)
    (hsecond : ∀ pass, txn.passes[1]? = some pass → pass.ops ≠ []) (txnId id : ℕ)
    (sws : List Switch) :
    ∃ pkt failed done ps, txnToSwFmt txn txnId = some pkt ∧
      travel id sws pkt = some (failed ++ done) ∧
      (∀ r ∈ failed, Fails r.1 r.2) ∧ ps <+: txn.passes ∧ List.Forall₂ (Writes id txnId) ps done ∧
      (ps = [] ∨ ps = txn.passes ∨ failed.length + done.length = sws.length) ∧
      ((∀ sw ∈ sws.head?, sw.myLock &&& txn.locksCheck = 0) → failed = []) := by
  obtain ⟨first, rest, tail, hfirst, hpkt, hstop, hrest, hpassesOf⟩ :=
    txnToSwFmt_eq hpasses (hops.trans (by decide)) hlocks hsecond txnId
  have hlen : (instrsOf txnId first).length ≤ MyP4db.maxSkips := by
    obtain ⟨rest, hcons⟩ : ∃ rest, txn.passes = first :: rest :=
      ⟨_, (List.cons_head?_tail hfirst).symm⟩
    rw [hcons, List.map_cons, List.sum_cons] at hops
    unfold instrsOf MyP4db.maxSkips
    rw [List.length_map]
    omega
  obtain ⟨failed, done, htravel, hrun, hfree⟩ :=
    run_travel (l := lockInfoOf txn) (isPass_instrsOf txnId first)
    (arranged_instrsOf txnId first) hlen hstop rfl hrest (show (0 : Byte) ≠ 1 by decide) tail id sws
  obtain ⟨qs, hprefix, hdone, hall⟩ := hrun.executes
  have hpassesOf' : passesOf (lockInfoOf txn).locksAcquire (instrsOf txnId first) rest =
    txn.passes.map (instrsOf txnId) := hpassesOf
  rw [hpassesOf'] at hprefix hall
  -- the passes that were executed
  have hqs : qs = (txn.passes.take qs.length).map (instrsOf txnId) := by
    rw [List.map_take]
    exact List.prefix_iff_eq_take.mp hprefix
  refine ⟨_, failed, done, txn.passes.take qs.length, hpkt, htravel, hrun.fails,
    List.take_prefix _ _, ?_, ?_, hfree rfl⟩
  · rw [hqs, List.forall₂_map_left_iff, List.forall₂_iff_zip] at hdone
    rw [List.forall₂_iff_zip]
    refine ⟨hdone.1, fun {pass r} hmem => writes_of_executes (hslots pass ?_) (hdone.2 hmem)⟩
    exact List.mem_of_mem_take (List.of_mem_zip hmem).1
  · refine hall.imp (fun hnil => ?_) (Or.imp_left fun heq => ?_)
    · rw [hnil]
      rfl
    · rw [heq, List.length_map, List.take_length]

/-- A transaction with two passes. -/
def twoPasses (second : List (ℕ × ℕ)) : SwTxn where
  port := 0
  id := 0
  passCt := 0
  failCt := 0
  valid := true
  locksCheck := 3
  locksWanted := 2
  locksUndo := 0
  passes := [.ofOps [(0, 3), (5, 7)], .ofOps second]

/-- A switch with some locks. -/
def locked (myLock : BitVec 32) : Switch := ⟨myLock, fun _ => 0⟩

theorem txnToSwFmt_executes_twoPasses : ∃ pkt failed done ps,
    txnToSwFmt (twoPasses [(0, 4)]) 9 = some pkt ∧
    travel 1 [locked 2, locked 0, locked 4, locked 7] pkt = some (failed ++ done) ∧
    (∀ r ∈ failed, Fails r.1 r.2) ∧ ps <+: (twoPasses [(0, 4)]).passes ∧
    List.Forall₂ (Writes 1 9) ps done ∧
    (ps = [] ∨ ps = (twoPasses [(0, 4)]).passes ∨ failed.length + done.length = 4) ∧
    ((∀ sw ∈ [locked 2, locked 0, locked 4, locked 7].head?, sw.myLock &&& 3 = 0) →
      failed = []) := by
  have hsecond : ∀ pass, (twoPasses [(0, 4)]).passes[1]? = some pass → pass.ops ≠ [] := by
    intro pass hpass
    obtain rfl : SwPassTxn.ofOps [(0, 4)] = pass := Option.some.inj hpass
    decide +kernel
  exact txnToSwFmt_executes (.inr rfl) (by decide +kernel) (by decide)
    (by decide +kernel) hsecond 9 1 _

/-- A second pass without operations: the stop bit is cleared when the first pass is done, and then
all instructions are skipped, which are too many. -/
theorem not_txnToSwFmt_executes_empty :
    (twoPasses []).passes.length = 2 ∧ ((twoPasses []).passes.map fun p => p.ops.length).sum ≤ 7 ∧
      ((twoPasses []).locksWanted ≠ 0 ↔ (twoPasses []).passes.length = 2) ∧
      (∀ pass ∈ (twoPasses []).passes, ∀ o ∈ pass.ops, o.2 < maxSlots) ∧
      ((txnToSwFmt (twoPasses []) 9).map fun pkt => (travel 1 [locked 0] pkt).isSome) = some true ∧
      ((txnToSwFmt (twoPasses []) 9).map fun pkt => (travel 1 [locked 0, locked 2] pkt).isSome) =
      some false :=
  ⟨rfl, by decide +kernel, by decide, by decide +kernel, by decide +kernel, by decide +kernel⟩

end P4db.FastLayout
