import Mathlib.Data.List.Forall2
import P4db.Algorithm.Transition
import P4db.Ee.HotPeriod
import P4db.Ee.Equiv.HotCold
import P4db.Ee.Equiv.Switch

/-!
# The start and end packets

`gen_start_end_packets` visits every slot of the block once.  When the reverse map of the layout
agrees with the locations it reports (`Consistent`), the operations of the start packets are, packet
after packet, one write for every local key of the block in the order of the visit, those of the end
packets one read each, and the operations of one packet lie on different register arrays
(`genStartEndPackets_spec`).  A row gives at most nine packets, so the stack pool is never
exhausted.
-/

namespace P4db

open SwitchInfo NewP4db Transition

/-- The reverse map finds only keys the layout knows, at the places it reports for them. -/
structure DeclusteredLayout.Consistent (layout : DeclusteredLayout) : Prop where
  known : ∀ r < nRegs, ∀ s < slotsPerSchedBlock, ∀ k,
    layout.revLookup r (s + slotsPerSchedBlock * layout.blockNum) = some k →
      (layout.virtMap k).isSome = true
  pos : ∀ r < nRegs, ∀ s < slotsPerSchedBlock, ∀ k,
    layout.revLookup r (s + slotsPerSchedBlock * layout.blockNum) = some k →
      (layout.location k).regArrayId = r ∧
        (layout.location k).regArrayIdx = s + slotsPerSchedBlock * layout.blockNum

namespace StartEnd

/-- The key of a slot, if this node owns it. -/
def localKey (e : Env) (layout : DeclusteredLayout) (s r : ℕ) : Option DbKey :=
  (layout.revLookup r (s + slotsPerSchedBlock * layout.blockNum)).filter
    fun k => (e.partInfo.location k).isLocal

/-- The keys found in the first `n` register arrays of a row. -/
def rowKeys (e : Env) (layout : DeclusteredLayout) (s n : ℕ) : List DbKey :=
  (List.range n).filterMap (localKey e layout s)

/-- The keys found in the first `n` rows. -/
def blockKeys (e : Env) (layout : DeclusteredLayout) (n : ℕ) : List DbKey :=
  (List.range n).flatMap fun s => rowKeys e layout s nRegs

/-- The operation on a key, up to the owner field, which `fill_op` does not set. -/
def IsOpOn (e : Env) (layout : DeclusteredLayout) (isInit : Bool) (k : DbKey) (pr : HotOp) : Prop :=
  pr.1.id = k ∧ pr.1.mode = (if isInit then .write else .read) ∧ pr.1.value = e.table k ∧
    pr.2 = layout.location k

theorem IsOpOn.mode_ne {e : Env} {layout : DeclusteredLayout} {isInit : Bool} {k : DbKey}
    {pr : HotOp} (h : IsOpOn e layout isInit k pr) : pr.1.mode ≠ .invalid := by
  rw [h.2.1]
  cases isInit <;> nofun

theorem exists_left_of_mem_right {α β : Type*} {R : α → β → Prop} {l₁ : List α} {l₂ : List β}
    (h : List.Forall₂ R l₁ l₂) {b : β} (hb : b ∈ l₂) : ∃ a ∈ l₁, R a b := by
  induction h with
  | nil => cases hb
  | cons hR _ ih =>
    rcases List.mem_cons.mp hb with rfl | hb
    · exact ⟨_, List.mem_cons_self, hR⟩
    · obtain ⟨a, ha, hab⟩ := ih hb
      exact ⟨a, List.mem_cons_of_mem _ ha, hab⟩

theorem exists_right_of_mem_left {α β : Type*} {R : α → β → Prop} {l₁ : List α} {l₂ : List β}
    (h : List.Forall₂ R l₁ l₂) {a : α} (ha : a ∈ l₁) : ∃ b ∈ l₂, R a b := by
  obtain ⟨b, hb, hR⟩ := exists_left_of_mem_right h.flip ha
  exact ⟨b, hb, hR⟩

/-! ### One list of packets -/

/-- The operations put into the transaction under construction. -/
def Fill.pending (f : Fill) (n : ℕ) : List HotOp := (List.range n).map f.txn.hotOpsPass1

/-- All operations so far, packet after packet. -/
def Fill.ops (f : Fill) : List HotOp := f.done.flatMap fun p => p.1.hot

/-- In row `s`, with `r` arrays visited and `n` operations pending; `ks` are all keys so far. -/
structure FillInv (e : Env) (layout : DeclusteredLayout) (isInit : Bool) (s r n : ℕ)
    (ks : List DbKey) (f : Fill) : Prop where
  accel : f.txn.doAccel = true
  ops : List.Forall₂ (IsOpOn e layout isInit) ks (f.ops ++ f.pending n)
  packets : ∀ p ∈ f.done, InBlock layout.blockNum p.1.hot ∧
    Encoded p.2 (baseOffset layout.blockNum) p.1.hot
  nonempty : ∀ p ∈ f.done, p.1.hot ≠ []
  reg_lt : ∀ pr ∈ f.pending n, pr.2.regArrayId < r
  idx_eq : ∀ pr ∈ f.pending n, pr.2.regArrayIdx = s + slotsPerSchedBlock * layout.blockNum
  distinct : ((f.pending n).map fun pr => pr.2.regArrayId).Nodup

namespace FillInv

variable {e : Env} {layout : DeclusteredLayout} {isInit : Bool} {s r n : ℕ} {ks : List DbKey}
  {f : Fill}

theorem skip (h : FillInv e layout isInit s r n ks f) : FillInv e layout isInit s (r + 1) n ks f :=
  { h with reg_lt := fun pr hpr => Nat.lt_succ_of_lt (h.reg_lt pr hpr) }

theorem put {k : DbKey} {pr : HotOp} (h : FillInv e layout isInit s r n ks f)
    (hop : IsOpOn e layout isInit k pr) (hreg : pr.2.regArrayId = r)
    (hidx : pr.2.regArrayIdx = s + slotsPerSchedBlock * layout.blockNum) :
    FillInv e layout isInit s (r + 1) (n + 1) (ks ++ [k]) (f.put n pr) := by
  have hpend : (f.put n pr).pending (n + 1) = f.pending n ++ [pr] := map_range_update _ _ _
  refine ⟨h.accel, ?_, h.packets, h.nonempty, ?_, ?_, ?_⟩
  · rw [hpend, ← List.append_assoc]
    exact List.rel_append h.ops (List.Forall₂.cons hop List.Forall₂.nil)
  · intro pr' hpr'
    rw [hpend] at hpr'
    rcases List.mem_append.mp hpr' with hpr' | hpr'
    · exact Nat.lt_succ_of_lt (h.reg_lt pr' hpr')
    · rw [List.mem_singleton.mp hpr', hreg]
      exact Nat.lt_succ_self r
  · intro pr' hpr'
    rw [hpend] at hpr'
    rcases List.mem_append.mp hpr' with hpr' | hpr'
    · exact h.idx_eq pr' hpr'
    · rw [List.mem_singleton.mp hpr', hidx]
  · rw [hpend, List.map_append, List.map_singleton, ← List.concat_eq_append, List.nodup_concat]
    refine ⟨fun hmem => ?_, h.distinct⟩
    obtain ⟨pr', hpr', heq⟩ := List.mem_map.mp hmem
    have hlt := h.reg_lt pr' hpr'
    omega

/-- The next row starts when nothing is pending. -/
theorem nextRow (h : FillInv e layout isInit s r 0 ks f) :
    FillInv e layout isInit (s + 1) 0 0 ks f :=
  { h with reg_lt := nofun, idx_eq := nofun }

theorem mode_pending (h : FillInv e layout isInit s r n ks f) {pr : HotOp}
    (hpr : pr ∈ f.pending n) : pr.1.mode ≠ .invalid := by
  obtain ⟨k, -, hop⟩ := exists_left_of_mem_right h.ops (List.mem_append_right _ hpr)
  exact hop.mode_ne

theorem hot_full (h : FillInv e layout isInit s r nOps ks f) : f.txn.hot = f.pending nOps := by
  refine terminated_eq (Nat.le_refl _) (fun j hj => ?_) fun hlt => absurd hlt (Nat.lt_irrefl _)
  exact decide_eq_false (h.mode_pending (List.mem_map_of_mem (List.mem_range.mpr hj)))

theorem hot_terminate (h : FillInv e layout isInit s r n ks f) (hn : n < nOps) :
    (f.terminate n).txn.hot = f.pending n := by
  have hsame : ∀ j < n, (f.terminate n).txn.hotOpsPass1 j = f.txn.hotOpsPass1 j := fun j hj =>
    Function.update_of_ne (Nat.ne_of_lt hj) _ _
  rw [Txn.hot, terminated_eq (k := n) (Nat.le_of_lt hn)]
  · exact List.map_congr_left fun j hj => hsame j (List.mem_range.mp hj)
  · intro j hj
    rw [hsame j hj]
    exact decide_eq_false (h.mode_pending (List.mem_map_of_mem (List.mem_range.mpr hj)))
  · intro _
    simp [Fill.terminate, Fill.put]

theorem inBlock_pending (h : FillInv e layout isInit s r n ks f) (hs : s < slotsPerSchedBlock)
    (hr : r ≤ nRegs) : InBlock layout.blockNum (f.pending n) where
  distinct := h.distinct
  reg_lt pr hpr := Nat.lt_of_lt_of_le (h.reg_lt pr hpr) hr
  ge pr hpr := by rw [h.idx_eq pr hpr]; exact Nat.le_add_left _ _
  lt pr hpr := by rw [h.idx_eq pr hpr]; omega

/-- A packet is made of the pending operations; `g` is `f`, terminated if need be. -/
theorem makeTxn (h : FillInv e layout isInit s r n ks f) (hn : 0 < n) (hs : s < slotsPerSchedBlock)
    (hr : r ≤ nRegs) (hb : slotsPerSchedBlock * layout.blockNum + 31 < regSize) {g : Fill}
    (haccel : g.txn.doAccel = true) (hdone : g.done = f.done) (hhot : g.txn.hot = f.pending n)
    (pkt : Buf) :
    ∃ f', g.makeTxn e layout.blockNum pkt = some f' ∧ FillInv e layout isInit s r 0 ks f' ∧
      f'.done.length = f.done.length + 1 := by
  have hin : InBlock layout.blockNum g.txn.hot := hhot ▸ h.inBlock_pending hs hr
  obtain ⟨pkt', hmake, henc⟩ := makeTxn_encoded e.conf haccel hin hb pkt
  refine ⟨⟨e.freshTxn, g.done ++ [(g.txn, pkt')]⟩, ?_, ⟨rfl, ?_, ?_, ?_, nofun, nofun,
    List.nodup_nil⟩, ?_⟩
  · rw [Fill.makeTxn, hmake]
    rfl
  · have hops : (⟨e.freshTxn, g.done ++ [(g.txn, pkt')]⟩ : Fill).ops = f.ops ++ f.pending n := by
      rw [Fill.ops, List.flatMap_append, hdone, ← hhot]
      simp [Fill.ops]
    rw [hops]
    exact (List.append_nil (f.ops ++ f.pending n)).symm ▸ h.ops
  · intro p hp
    rcases List.mem_append.mp hp with hp | hp
    · exact h.packets p (hdone ▸ hp)
    · rw [List.mem_singleton.mp hp]
      exact ⟨hin, henc⟩
  · intro p hp
    rcases List.mem_append.mp hp with hp | hp
    · exact h.nonempty p (hdone ▸ hp)
    · rw [List.mem_singleton.mp hp, hhot, Fill.pending]
      simpa using Nat.ne_of_gt hn
  · rw [hdone, List.length_append, List.length_singleton]

end FillInv

/-! ### Both lists -/

/-- The state in row `s` with `r` arrays visited; `ks` are all keys so far. -/
structure Inv (e : Env) (layout : DeclusteredLayout) (s r : ℕ) (ks : List DbKey) (st : State) :
    Prop where
  start : FillInv e layout true s r st.opsAdded ks st.start
  fin : FillInv e layout false s r st.opsAdded ks st.fin
  layout_eq : st.layout = layout
  ops_lt : st.opsAdded < nOps
  length_eq : st.fin.done.length = st.start.done.length
  pool : st.pool.size = 2 * hotTxnPktBytes * st.start.done.length
  room : nOps * st.start.done.length + st.opsAdded ≤ nRegs * s + r

variable {e : Env} {layout : DeclusteredLayout} {s r : ℕ} {ks : List DbKey} {st : State}

theorem inv_init (e : Env) (layout : DeclusteredLayout) (buffer : Buf) :
    Inv e layout 0 0 [] (State.init e ⟨0, buffer⟩ layout) where
  start := ⟨rfl, List.Forall₂.nil, nofun, nofun, nofun, nofun, List.nodup_nil⟩
  fin := ⟨rfl, List.Forall₂.nil, nofun, nofun, nofun, nofun, List.nodup_nil⟩
  layout_eq := rfl
  ops_lt := Nat.zero_lt_succ _
  length_eq := rfl
  pool := rfl
  room := Nat.le_refl _

theorem allocate_of_le {p : StackPool} (h : p.size + hotTxnPktBytes ≤ maxStackpoolSize) :
    p.allocate hotTxnPktBytes =
      some (fun j => p.buffer (p.size + j), { p with size := p.size + hotTxnPktBytes }) := by
  rw [StackPool.allocate, if_neg (by omega)]

/-- The lambda `make_txn`, on the pending operations of both lists; `st'` is `st`, terminated if
need be. -/
theorem Inv.makeTxn {n : ℕ} (st' : State) (hn : 0 < n)
    (hstart : FillInv e layout true s r n ks st.start)
    (hfin : FillInv e layout false s r n ks st.fin) (hs : s < slotsPerSchedBlock) (hr : r ≤ nRegs)
    (hb : slotsPerSchedBlock * layout.blockNum + 31 < regSize) (hlay : st'.layout = layout)
    (hst : st'.start.txn.doAccel = true ∧ st'.start.done = st.start.done ∧
      st'.start.txn.hot = st.start.pending n)
    (hfi : st'.fin.txn.doAccel = true ∧ st'.fin.done = st.fin.done ∧
      st'.fin.txn.hot = st.fin.pending n) (hlen : st.fin.done.length = st.start.done.length)
    (hpool : st'.pool.size = 2 * hotTxnPktBytes * st.start.done.length)
    (hroom : nOps * (st.start.done.length + 1) ≤ nRegs * s + r) :
    ∃ st'', st'.makeTxn e = some st'' ∧ Inv e layout s r ks st'' ∧ st''.opsAdded = 0 := by
  simp only [nOps, nRegs, slotsPerSchedBlock] at hroom hs hr
  have hmax : maxStackpoolSize = 2 * hotTxnPktBytes * 288 := rfl
  have hpkt : hotTxnPktBytes = 440 := rfl
  have halloc₁ := allocate_of_le (p := st'.pool) (by rw [hpool, hmax, hpkt]; omega)
  have halloc₂ := allocate_of_le (p := ⟨st'.pool.size + hotTxnPktBytes, st'.pool.buffer⟩) (by
    show st'.pool.size + hotTxnPktBytes + hotTxnPktBytes ≤ maxStackpoolSize
    rw [hpool, hmax, hpkt]
    omega)
  obtain ⟨f₁, hmake₁, hinv₁, hlen₁⟩ := hstart.makeTxn hn hs hr hb hst.1 hst.2.1 hst.2.2
    fun j => st'.pool.buffer (st'.pool.size + j)
  obtain ⟨f₂, hmake₂, hinv₂, hlen₂⟩ := hfin.makeTxn hn hs hr hb hfi.1 hfi.2.1 hfi.2.2
    fun j => st'.pool.buffer (st'.pool.size + hotTxnPktBytes + j)
  refine ⟨⟨f₁, f₂, 0, ⟨st'.pool.size + hotTxnPktBytes + hotTxnPktBytes, st'.pool.buffer⟩, layout⟩,
    ?_, ⟨hinv₁, hinv₂, rfl, Nat.zero_lt_succ _, ?_, ?_, ?_⟩, rfl⟩
  · simp only [State.makeTxn, halloc₁, halloc₂, hlay, hmake₁, hmake₂, Option.bind_eq_bind,
      Option.bind_some]
  · rw [hlen₁, hlen₂, hlen]
  · show st'.pool.size + hotTxnPktBytes + hotTxnPktBytes = 2 * hotTxnPktBytes * f₁.done.length
    rw [hpool, hlen₁, hpkt]
    omega
  · show nOps * f₁.done.length + 0 ≤ nRegs * s + r
    rw [hlen₁]
    exact hroom

theorem fillOp_isOpOn (layout : DeclusteredLayout) (isInit : Bool) (old : Op) {k : DbKey}
    (hk : k < e.partInfo.totalSize) :
    ∃ op, e.fillOp isInit old k = some op ∧ IsOpOn e layout isInit k (op, layout.location k) :=
  ⟨_, if_pos hk, rfl, rfl, rfl, rfl⟩

/-- The two `fill_op` calls, for a key of the table that the layout knows. -/
theorem fillOps_spec (h : Inv e layout s r ks st) {k : DbKey}
    (hknown : (layout.virtMap k).isSome = true) (hreg : (layout.location k).regArrayId = r)
    (hidx : (layout.location k).regArrayIdx = s + slotsPerSchedBlock * layout.blockNum)
    (hk : k < e.partInfo.totalSize) :
    ∃ st', st.fillOps e k = some st' ∧ st'.layout = layout ∧ st'.pool = st.pool ∧
      st'.opsAdded = st.opsAdded + 1 ∧ st'.start.done = st.start.done ∧
      st'.fin.done = st.fin.done ∧
      FillInv e layout true s (r + 1) (st.opsAdded + 1) (ks ++ [k]) st'.start ∧
      FillInv e layout false s (r + 1) (st.opsAdded + 1) (ks ++ [k]) st'.fin := by
  obtain ⟨op, hop, hon⟩ := fillOp_isOpOn layout true
    (st.start.txn.hotOpsPass1 st.opsAdded).1 hk
  obtain ⟨op', hop', hon'⟩ := fillOp_isOpOn layout false
    (st.fin.txn.hotOpsPass1 st.opsAdded).1 hk
  have hsnd := DeclusteredLayout.getLocation_snd_of_isSome hknown
  refine ⟨⟨st.start.put st.opsAdded (op, layout.location k),
    st.fin.put st.opsAdded (op', layout.location k), st.opsAdded + 1, st.pool, layout⟩,
      ?_, rfl, rfl,
    rfl, rfl, rfl, h.start.put hon hreg hidx, h.fin.put hon' hreg hidx⟩
  simp only [State.fillOps, hop, hop', h.layout_eq, hsnd, Option.bind_eq_bind, Option.bind_some]
  rfl

/-- A slot can be visited: if its key is local, it is a key of the table. -/
def SlotOk (e : Env) (layout : DeclusteredLayout) (s r : ℕ) : Prop :=
  ∀ k, localKey e layout s r = some k → k < e.partInfo.totalSize

theorem inv_visit (h : Inv e layout s r ks st) (hc : layout.Consistent) (hok : SlotOk e layout s r)
    (hs : s < slotsPerSchedBlock) (hr : r < nRegs)
    (hb : slotsPerSchedBlock * layout.blockNum + 31 < regSize) :
    ∃ st', st.visit e s r = some st' ∧
      Inv e layout s (r + 1) (ks ++ (localKey e layout s r).toList) st' := by
  have hskip : Inv e layout s (r + 1) ks st :=
    { h with start := h.start.skip, fin := h.fin.skip, room := Nat.le_succ_of_le h.room }
  unfold State.visit
  rw [h.layout_eq]
  have hkey : localKey e layout s r = (layout.revLookup r
    (s + slotsPerSchedBlock * layout.blockNum)).filter fun k =>
    (e.partInfo.location k).isLocal := rfl
  cases hrev : layout.revLookup r (s + slotsPerSchedBlock * layout.blockNum) with
  | none =>
    rw [hrev, Option.filter_none] at hkey
    exact ⟨st, rfl, by rw [hkey]; simpa using hskip⟩
  | some k =>
    rw [hrev] at hkey
    by_cases hloc : (e.partInfo.location k).isLocal
    · rw [Option.filter_some, if_pos hloc] at hkey
      obtain ⟨hreg, hidx⟩ := hc.pos r hr s hs k hrev
      obtain ⟨st₁, hfill, hlay, hpool, hops, hds, hdf, hst, hfi⟩ :=
        fillOps_spec h (hc.known r hr s hs k hrev) hreg hidx (hok k hkey)
      have hroom := h.room
      have hlen : st₁.fin.done.length = st₁.start.done.length := by rw [hds, hdf]; exact h.length_eq
      simp only [hloc, ↓reduceIte, hfill, Option.bind_eq_bind, Option.bind_some]
      rw [hkey, Option.toList_some]
      split_ifs with hfull
      · -- the eighth operation completes a packet
        rw [hops] at hfull
        rw [hfull] at hst hfi
        obtain ⟨st₂, hmake, hinv, -⟩ := Inv.makeTxn st₁ (by decide) hst hfi hs hr hb hlay
          ⟨hst.accel, rfl, hst.hot_full⟩ ⟨hfi.accel, rfl, hfi.hot_full⟩ hlen
          (by rw [hpool, hds]; exact h.pool) (by rw [hds, Nat.mul_succ]; omega)
        exact ⟨st₂, hmake, hinv⟩
      · refine ⟨st₁, rfl, ⟨hops ▸ hst, hops ▸ hfi, hlay, ?_, hlen, ?_, ?_⟩⟩
        · have := h.ops_lt
          omega
        · rw [hpool, hds]
          exact h.pool
        · rw [hops, hds]
          omega
    · rw [Option.filter_some, if_neg hloc] at hkey
      simp only [hloc]
      exact ⟨st, rfl, by rw [hkey]; simpa using hskip⟩

theorem rowKeys_succ (e : Env) (layout : DeclusteredLayout) (s n : ℕ) :
    rowKeys e layout s (n + 1) = rowKeys e layout s n ++ (localKey e layout s n).toList := by
  rw [rowKeys, List.range_succ, List.filterMap_append]
  cases h : localKey e layout s n <;> simp [rowKeys, h]

/-- A visit that returns has found its key in the table. -/
theorem slotOk_of_visit (hlay : st.layout = layout) {st' : State}
    (hv : st.visit e s r = some st') : SlotOk e layout s r := by
  intro k hk
  obtain ⟨hrev, hloc⟩ := Option.filter_eq_some_iff.mp hk
  unfold State.visit at hv
  simp only [hlay, hrev, hloc, ↓reduceIte, State.fillOps, Env.fillOp] at hv
  by_contra hlt
  rw [if_neg hlt] at hv
  cases hv

theorem visits_spec (h : Inv e layout s 0 ks st) (hc : layout.Consistent)
    (hs : s < slotsPerSchedBlock) (hb : slotsPerSchedBlock * layout.blockNum + 31 < regSize) :
    ((∃ st', (List.range nRegs).foldlM (State.visit e s) st = some st') ↔
        ∀ r < nRegs, SlotOk e layout s r) ∧
      ∀ st', (List.range nRegs).foldlM (State.visit e s) st = some st' →
        Inv e layout s nRegs (ks ++ rowKeys e layout s nRegs) st' := by
  refine foldlM_range_spec (I := fun n st => Inv e layout s n (ks ++ rowKeys e layout s n) st) ?_ ?_
  · simpa [rowKeys] using h
  · intro r hr st₁ hinv
    refine returns_iff (fun hok => ?_) fun st' hv => slotOk_of_visit hinv.layout_eq hv
    rw [rowKeys_succ, ← List.append_assoc]
    exact inv_visit hinv hc hok hs hr hb

/-- The end of a row always returns. -/
theorem inv_endRow (hinv : Inv e layout s nRegs ks st) (hs : s < slotsPerSchedBlock)
    (hb : slotsPerSchedBlock * layout.blockNum + 31 < regSize) :
    ∃ st', st.endRow e = some st' ∧ Inv e layout (s + 1) 0 ks st' := by
  have hnext : ∀ st', Inv e layout s nRegs ks st' → st'.opsAdded = 0 →
      Inv e layout (s + 1) 0 ks st' := by
    intro st' h' h0'
    have hst := h'.start
    have hfi := h'.fin
    rw [h0'] at hst hfi
    exact { h' with
      start := h0' ▸ hst.nextRow
      fin := h0' ▸ hfi.nextRow
      room := by rw [Nat.mul_succ]; exact h'.room }
  simp only [State.endRow, hinv.ops_lt, ↓reduceIte]
  split_ifs with hpos
  · have hroom := hinv.room
    have hops := hinv.ops_lt
    obtain ⟨st₂, hmake, hinv₂, h0₂⟩ := Inv.makeTxn
      { st with
        start := st.start.terminate st.opsAdded
        fin := st.fin.terminate st.opsAdded }
      hpos hinv.start hinv.fin hs (Nat.le_refl _) hb hinv.layout_eq
      ⟨hinv.start.accel, rfl, hinv.start.hot_terminate hops⟩
      ⟨hinv.fin.accel, rfl, hinv.fin.hot_terminate hops⟩ hinv.length_eq hinv.pool (by
        -- a row that is not full of packets leaves room for one more
        simp only [nOps, nRegs] at hroom ⊢
        omega)
    exact ⟨st₂, hmake, hnext st₂ hinv₂ h0₂⟩
  · exact ⟨st, rfl, hnext st hinv (by omega)⟩

theorem row_spec (h : Inv e layout s 0 ks st) (hc : layout.Consistent)
    (hs : s < slotsPerSchedBlock) (hb : slotsPerSchedBlock * layout.blockNum + 31 < regSize) :
    ((∃ st', st.row e s = some st') ↔ ∀ r < nRegs, SlotOk e layout s r) ∧
      ∀ st', st.row e s = some st' →
        Inv e layout (s + 1) 0 (ks ++ rowKeys e layout s nRegs) st' := by
  obtain ⟨hret, hinv⟩ := visits_spec h hc hs hb
  have hbind : ∀ st', st.row e s = some st' ↔
      ∃ st₁, (List.range nRegs).foldlM (State.visit e s) st = some st₁ ∧
        st₁.endRow e = some st' := fun st' => Option.bind_eq_some_iff
  refine returns_iff (fun hok => ?_) fun st' hrow => ?_
  · obtain ⟨st₁, hrun⟩ := hret.mpr hok
    obtain ⟨st', hend, hinv'⟩ := inv_endRow (hinv st₁ hrun) hs hb
    exact ⟨st', (hbind st').mpr ⟨st₁, hrun, hend⟩, hinv'⟩
  · obtain ⟨st₁, hrun, -⟩ := (hbind st').mp hrow
    exact hret.mp ⟨st₁, hrun⟩

/-- At the end of the walk nothing is pending. -/
theorem ops_of_inv {isInit : Bool} {n : ℕ} {f : Fill} (h : FillInv e layout isInit s 0 n ks f) :
    List.Forall₂ (IsOpOn e layout isInit) ks f.ops := by
  have hnil : f.pending n = [] := by
    rw [List.eq_nil_iff_forall_not_mem]
    exact fun pr hpr => absurd (h.reg_lt pr hpr) (Nat.not_lt_zero _)
  have hops := h.ops
  rwa [hnil, List.append_nil] at hops

/-- **The packets of a node.** They are generated unless a local key of the block is outside the
table; the start packets then hold, in order, one write for each local key of the block, the end
packets one read. -/
theorem genStartEndPackets_spec (e : Env) (hc : layout.Consistent)
    (hb : slotsPerSchedBlock * layout.blockNum + 31 < regSize) (buffer : Buf) :
    ((∃ st, genStartEndPackets e ⟨0, buffer⟩ layout = some st) ↔
        ∀ s < slotsPerSchedBlock, ∀ r < nRegs, SlotOk e layout s r) ∧
      ∀ st, genStartEndPackets e ⟨0, buffer⟩ layout = some st →
        Inv e layout slotsPerSchedBlock 0 (blockKeys e layout slotsPerSchedBlock) st := by
  refine foldlM_range_spec (I := fun n st => Inv e layout n 0 (blockKeys e layout n) st)
    (inv_init e layout buffer) fun s hs st hinv => ?_
  have hsucc : blockKeys e layout (s + 1) = blockKeys e layout s ++ rowKeys e layout s nRegs := by
    rw [blockKeys, List.range_succ, List.flatMap_append]
    simp [blockKeys]
  rw [hsucc]
  exact row_spec hinv hc hs hb

end StartEnd

end P4db
