import P4db.Algorithm.Conflict
import P4db.Ee.Equiv.SentOrder

/-!
# The order at the switch extends the cold order

The packets of a batch are sent after its cold operations.  If a transaction hands a cold row on to
another one, which then takes part in a mini-batch that is not smaller, its packet must come first.

* `packets_extend_cold_order`: so it is, whichever nodes and batches the two transactions are of.

The clocks give the order of different mini-batches (`SentOk.sorted`), and the queue of the node
that of equal ones.  What is in a queue, and what of it has been sent, is `OrderOk`; that it is of
calls in the right mini-batches is `Carried`.
-/

namespace P4db

namespace Lockstep

open Transition TwoPhase

variable {n : Bool → UInt32} {π : Type} {c : Config} {s s' : State n π} {a : Action n π} {i : Bool}

/-- The transactions whose packets have been sent, in order. -/
def State.packets (s : State n π) : List Attempt := s.sent.flatMap fun x => x.event.txns

/-- The transactions whose packets were sent in the hot period that is running. -/
def State.sentNow (s : State n π) (i : Bool) : List Attempt :=
  (s.hot i).elim [] fun r => r.done.flatMap HotEvent.txns

/-- The transactions whose packets are still to be sent: the rest of the hot period, or what is in
the queue. -/
def State.pending (s : State n π) (i : Bool) : List Attempt :=
  match s.hot i with
  | some r => r.todo.flatMap HotEvent.txns
  | none => (List.range (s.sys.hotSendQ i.toNat).sendQTail).map fun j =>
      ((s.sys.hotSendQ i.toNat).sendQ j).txn

/-- The slots of the first `b` batches of a node. -/
def State.slotsBefore (s : State n π) (i : Bool) (b : ℕ) : List Attempt :=
  (List.range b).flatMap (s.slotsIn i)

theorem mem_slotsIn {batch : ℕ} {t : Attempt} :
    t ∈ s.slotsIn i batch ↔ t.worker.nid = i.toNat ∧ ∃ k, (t, batch, k) ∈ s.sys.slots := by
  simp only [State.slotsIn, List.mem_map, List.mem_filter, decide_eq_true_eq]
  constructor
  · rintro ⟨⟨t', b, k⟩, ⟨hmem, hnid, rfl⟩, rfl⟩
    exact ⟨hnid, k, hmem⟩
  · rintro ⟨hnid, k, hmem⟩
    exact ⟨_, ⟨hmem, hnid, rfl⟩, rfl⟩

theorem mem_slotsBefore {b : ℕ} {t : Attempt} : t ∈ s.slotsBefore i b ↔
    t.worker.nid = i.toNat ∧ ∃ b' < b, ∃ k, (t, b', k) ∈ s.sys.slots := by
  simp only [State.slotsBefore, List.mem_flatMap, List.mem_range, mem_slotsIn]
  constructor
  · rintro ⟨b', hb', hnid, k, hmem⟩
    exact ⟨hnid, b', hb', k, hmem⟩
  · rintro ⟨hnid, b', hb', k, hmem⟩
    exact ⟨b', hb', hnid, k, hmem⟩

theorem slotsBefore_succ (i : Bool) (b : ℕ) :
    s.slotsBefore i (b + 1) = s.slotsBefore i b ++ s.slotsIn i b := by
  rw [State.slotsBefore, List.range_succ, List.flatMap_append, List.flatMap_singleton]
  rfl

theorem slotsBefore_congr {b : ℕ} (h : ∀ b' < b, s'.slotsIn i b' = s.slotsIn i b') :
    s'.slotsBefore i b = s.slotsBefore i b := by
  unfold State.slotsBefore
  exact List.flatMap_congr fun b' hb' => h b' (List.mem_range.mp hb')

theorem sentNow_of_hot {r : HotRun π} (hhot : s.hot i = some r) :
    s.sentNow i = r.done.flatMap HotEvent.txns := by
  rw [State.sentNow, hhot]
  rfl

theorem sentNow_of_none (hhot : s.hot i = none) : s.sentNow i = [] := by
  rw [State.sentNow, hhot]
  rfl

/-- What a node has in its queue, and what of it has been sent. -/
structure OrderOk (s : State n π) (i : Bool) : Prop where
  queue : s.slotsIn i (s.sys.batch i.toNat) = (List.range (s.sys.hotSendQ i.toNat).sendQTail).map
    fun j => ((s.sys.hotSendQ i.toNat).sendQ j).txn
  later : ∀ b, s.sys.batch i.toNat < b → s.slotsIn i b = []
  /-- the batches that are over, and a part of this one -/
  once : (s.sentBy i).flatMap (fun x => x.event.txns) =
    s.slotsBefore i (s.sys.batch i.toNat) ++ s.sentNow i

/-! ### Steps -/

theorem OrderOk.congr (h : OrderOk s i) (hbatch : s'.sys.batch i.toNat = s.sys.batch i.toNat)
    (hnow : s'.sentNow i = s.sentNow i) (hsent : s'.sentBy i = s.sentBy i)
    (hslots : s'.slotsIn i = s.slotsIn i)
    (hqueue : s'.sys.hotSendQ i.toNat = s.sys.hotSendQ i.toNat) : OrderOk s' i := by
  refine ⟨?_, ?_, ?_⟩
  · rw [hbatch, hslots, hqueue]
    exact h.queue
  · rw [hbatch, hslots]
    exact h.later
  · rw [hbatch, hsent, hnow, slotsBefore_congr fun b _ => congrFun hslots b]
    exact h.once

/-- The queue when a thread claims an entry. -/
theorem queue_of_claims {u : Fin (n i).toNat} {mb : ℕ} {q : HotSendQ Attempt}
    (hclaim : System.Claims s.sys s'.sys (worker i u) mb q) :
    (s'.sys.hotSendQ i.toNat).sendQTail = (s.sys.hotSendQ i.toNat).sendQTail + 1 ∧
      (s'.sys.hotSendQ i.toNat).sendQ = Function.update (s.sys.hotSendQ i.toNat).sendQ
        (s.sys.hotSendQ i.toNat).sendQTail ⟨s.sys.attempt (worker i u), mb,
          (s.sys.hotSendQ i.toNat).bufSize, hotTxnPktBytes⟩ := by
  have hself : s'.sys.hotSendQ i.toNat = q := by
    rw [hclaim.hotSendQ]
    exact Function.update_self _ _ _
  rw [hself]
  exact HotSendQ.allocSlot_eq_some hclaim.alloc

theorem OrderOk.claim (h : OrderOk s i) {u : Fin (n i).toNat} {mb : ℕ} {q : HotSendQ Attempt}
    (hbatch : s'.sys.batch i.toNat = s.sys.batch i.toNat) (hnow : s'.sentNow i = s.sentNow i)
    (hsent : s'.sentBy i = s.sentBy i)
    (hclaim : System.Claims s.sys s'.sys (worker i u) mb q) : OrderOk s' i := by
  obtain ⟨htail, hsend⟩ := queue_of_claims hclaim
  have hother : ∀ b, b ≠ s.sys.batch i.toNat → s'.slotsIn i b = s.slotsIn i b := by
    intro b hb
    rw [slotsIn_claim hclaim rfl, if_neg fun hc => hb hc.2, List.append_nil]
  refine ⟨?_, fun b hb => ?_, ?_⟩
  · rw [hbatch, slotsIn_claim hclaim rfl, if_pos ⟨rfl, rfl⟩, h.queue, htail, hsend,
      List.range_succ, List.map_append, List.map_singleton, Function.update_self]
    refine congrArg₂ _ (List.map_congr_left fun k hk => ?_) rfl
    rw [Function.update_of_ne (Nat.ne_of_lt (List.mem_range.mp hk))]
  · rw [hbatch] at hb
    rw [hother b (Nat.ne_of_gt hb)]
    exact h.later b hb
  · rw [hbatch, hsent, hnow, slotsBefore_congr fun b hb => hother b (Nat.ne_of_lt hb)]
    exact h.once

theorem flatMap_txns {τ : Type} (evs : List (HotEvent τ π)) :
    evs.flatMap HotEvent.txns = (HotPeriod.windows evs).flatten.map HotTxnEntry.txn := by
  induction evs with
  | nil => rfl
  | cons ev evs ih =>
    rw [List.flatMap_cons, ih]
    cases ev with
    | sendmmsg w => rw [HotPeriod.windows, List.flatten_cons, List.map_append]; rfl
    | waitNodes | sendmsg => rfl

/-- A hot period sends the queue of the node. -/
theorem OrderOk.txns_of_hot (h : OrderOk s i) (hs : SentOk s) {r : HotRun π}
    (hhot : s.hot i = some r) : r.done.flatMap HotEvent.txns ++ r.todo.flatMap HotEvent.txns =
      s.slotsIn i (s.sys.batch i.toNat) := by
  rw [← List.flatMap_append, flatMap_txns, (hs.placed i r hhot).2.sent, h.queue, List.map_map]
  rfl

theorem OrderOk.step (h : OrderOk s i) (hs : SentOk s) (hstep : HotStep s a s' i) :
    OrderOk s' i := by
  cases hstep with
  | stays hbatch hhot hsent hslots hqueue =>
    refine h.congr hbatch ?_ hsent hslots hqueue
    rw [State.sentNow, hhot]
    rfl
  | claims hbatch hnone hhot hsent hclaim =>
    exact h.claim hbatch ((sentNow_of_none hhot).trans (sentNow_of_none hnone).symm) hsent hclaim
  | begins ha hend hbatch hrun hnone hhot hsent hsys =>
    have hnow : s'.sentNow i = s.sentNow i :=
      (sentNow_of_hot hhot).trans (sentNow_of_none hnone).symm
    exact h.congr (by rw [hsys]) hnow hsent (congrFun (slotsIn_congr (by rw [hsys])) i)
      (by rw [hsys])
  | @event mb done ev todo hhot hhot' hsent hsys =>
    have hslots : s'.slotsIn = s.slotsIn := slotsIn_congr (by rw [hsys])
    have hnew : (if ev.isWait then [] else
        [(⟨i, s.sys.batch i.toNat, done, ev⟩ : Sending π)]).flatMap (fun x => x.event.txns) =
        ev.txns := by
      cases ev with
      | waitNodes => rfl
      | sendmsg | sendmmsg => exact List.append_nil _
    refine ⟨?_, ?_, ?_⟩
    · rw [hsys, hslots]
      exact h.queue
    · rw [hsys, hslots]
      exact h.later
    · rw [hsent, List.flatMap_append, hnew, h.once, hsys,
        slotsBefore_congr fun b _ => congrFun (congrFun hslots i) b, sentNow_of_hot hhot,
        sentNow_of_hot hhot', List.flatMap_append, List.flatMap_singleton, List.append_assoc]
  | @ends mb done hhot hhot' hbatch hsent hslots hqueue =>
    have hall : done.flatMap HotEvent.txns ++ [] = _ := h.txns_of_hot hs hhot
    rw [List.append_nil] at hall
    refine ⟨?_, fun b hb => ?_, ?_⟩
    · rw [hbatch, hslots, hqueue]
      exact h.later _ (Nat.lt_succ_self _)
    · rw [hslots]
      exact h.later b (by omega)
    · rw [hsent, h.once, hbatch, slotsBefore_congr fun b _ => congrFun hslots b, slotsBefore_succ,
        sentNow_of_hot hhot, sentNow_of_none hhot', List.append_nil]
      exact congrArg _ hall

theorem orderOk_init (value : ℕ → DbKey → BitVec 32) (mem : ℕ → ℕ → HotTxnEntry Attempt)
    (i : Bool) : OrderOk (State.init value mem : State n π) i :=
  ⟨rfl, fun _ _ => rfl, rfl⟩

/-- The batch that is filled or sent is the last one. -/
theorem OrderOk.sent_append_pending (h : OrderOk s i) (hs : SentOk s) :
    (s.sentBy i).flatMap (fun x => x.event.txns) ++ s.pending i =
      s.slotsBefore i (s.sys.batch i.toNat + 1) := by
  rw [h.once, List.append_assoc, slotsBefore_succ]
  refine congrArg _ ?_
  cases hhot : s.hot i with
  | none =>
    rw [sentNow_of_none hhot, State.pending, hhot]
    exact h.queue.symm
  | some r =>
    rw [sentNow_of_hot hhot, State.pending, hhot]
    exact h.txns_of_hot hs hhot

/-- A packet that has been sent has a slot at its node. -/
theorem OrderOk.slot_of_sent (h : OrderOk s i) (hs : SentOk s) {x : Sending π} (hx : x ∈ s.sent)
    (hi : x.node = i) {t : Attempt} (ht : t ∈ x.event.txns) :
    t.worker.nid = i.toNat ∧ ∃ b k, (t, b, k) ∈ s.sys.slots := by
  have hmem : t ∈ s.slotsBefore i (s.sys.batch i.toNat + 1) := by
    rw [← h.sent_append_pending hs]
    refine List.mem_append_left _ (List.mem_flatMap.mpr ⟨x, ?_, ht⟩)
    exact List.mem_filter.mpr ⟨hx, decide_eq_true hi⟩
  obtain ⟨hnid, b, -, k, hslot⟩ := mem_slotsBefore.mp hmem
  exact ⟨hnid, b, k, hslot⟩

/-- The entries of the queues and the packets that have been sent are of calls in their
mini-batches. -/
structure Carried (s : State n π) : Prop where
  queue : ∀ i : Bool, ∀ j < (s.sys.hotSendQ i.toNat).sendQTail,
    s.sys.InBatch ((s.sys.hotSendQ i.toNat).sendQ j).txn
      ((s.sys.hotSendQ i.toNat).sendQ j).miniBatchNum
  sent : ∀ x ∈ s.sent, ∀ t ∈ x.event.txns,
    s.sys.InBatch t (roundsPerBatch * x.batch + x.stage)

theorem Carried.move (h : Carried s) (hinv : Inv s) (hr : System.Recorded s.sys) (hs : SentOk s)
    (hmove : Move c s a s') : Carried s' := by
  have hin := @inBatch_of_move _ _ _ _ _ _ hmove
  constructor
  · intro i j hj
    cases hmove.hotStep hinv i with
    | stays hbatch hhot hsent hslots hqueue =>
      rw [hqueue] at hj ⊢
      exact hin (h.queue i j hj)
    | begins ha hend hbatch hrun hnone hhot hsent hsys | event hhot hhot' hsent hsys =>
      rw [hsys] at hj ⊢
      exact h.queue i j hj
    | ends hhot hhot' hbatch hsent hslots hqueue =>
      rw [hqueue] at hj
      cases hj
    | claims hbatch hnone hhot hsent hclaim =>
      obtain ⟨htail, hsend⟩ := queue_of_claims hclaim
      rw [htail] at hj
      rw [hsend]
      rcases Nat.lt_succ_iff_lt_or_eq.mp hj with hlt | rfl
      · rw [Function.update_of_ne (Nat.ne_of_lt hlt)]
        exact hin (h.queue i j hlt)
      · rw [Function.update_self]
        exact hin (inBatch_of_claims hr hclaim)
  · intro x hx t ht
    rcases hmove.sent with heq | ⟨i, mb, done, ev, todo, hhot, -, -, -, heq⟩
    · exact hin (h.sent x (heq ▸ hx) t ht)
    · rw [heq] at hx
      rcases List.mem_append.mp hx with hx | hx
      · exact hin (h.sent x hx t ht)
      · -- the window consists of entries of the queue
        obtain rfl := List.mem_singleton.mp hx
        cases ev with
        | waitNodes | sendmsg => cases ht
        | sendmmsg w =>
          obtain ⟨e, he, rfl⟩ := List.mem_map.mp ht
          obtain ⟨hmb, -⟩ := (hs.next hinv hhot rfl).2.2 w rfl e he
          have hw := List.mem_append_right done (List.mem_cons_self (a := .sendmmsg w) (l := todo))
          obtain ⟨j, hj, rfl⟩ := hs.mem_queue hhot hw he
          rw [← hmb]
          exact hin (h.queue i j hj)

theorem carried_init (value : ℕ → DbKey → BitVec 32) (mem : ℕ → ℕ → HotTxnEntry Attempt) :
    Carried (State.init value mem : State n π) :=
  ⟨nofun, nofun⟩

/-- The entries of a queue are claimed in order. -/
def Ranked (sys : System) : Prop := sys.slots.Pairwise fun e e' =>
  e.1.worker.nid = e'.1.worker.nid → e.2.1 = e'.2.1 → e.2.2 < e'.2.2

theorem Ranked.move (h : Ranked s.sys) (hslots : System.SlotsOk s.sys) (hmove : Move c s a s') :
    Ranked s'.sys := by
  rcases slots_of_move hmove with heq | ⟨w, mb, q, hclaim⟩
  · rw [Ranked, heq]
    exact h
  · rw [Ranked, hclaim.slots]
    refine List.pairwise_append.mpr ⟨h, List.pairwise_singleton _ _, fun e he e' he' hnid hb => ?_⟩
    obtain rfl := List.mem_singleton.mp he'
    have hnid : e.1.worker.nid = w.nid := hnid
    have hlt := (hslots.below e he).2 (by rw [hnid]; exact hb)
    rwa [hnid] at hlt

/-! ### Order -/

/-- Outside the hot period the clock has not come to the packets of the batch. -/
theorem NodeOk.entered_le_periodAt {k : UInt32} {v : View k π} (h : NodeOk v) (hpos : 0 < k.toNat)
    (hhot : v.hot = none) : v.node.entered ≤ periodAt v.batch := by
  set l : Fin k.toNat := ⟨0, hpos⟩
  have hbegun : v.localBarrier.begun ≤ v.entered l := RBarrier.begun_le_entered h.locals l
  have hhigh := (h.threads l).high
  have hle := (h.leader l rfl).le
  have hup : v.up.toNat ≤ 1 := Bool.toNat_le _
  have hclock := h.clock
  simp only [View.hotWaits, hhot, periodAt, roundsPerBatch_eq, waitsPerPeriod_eq,
    Option.elim_none] at *
  omega

variable {store₀ : DbKey → BitVec 32}

/-- A call of `my_execute` has a worker. -/
theorem Driven.worker_of_inBatch (h : Driven c store₀ s) {t : Attempt} {m : ℕ}
    (hin : s.sys.InBatch t m) : ∃ i u, t.worker = worker (n := n) i u := by
  obtain ⟨txn, hmem⟩ := System.inBatch_iff.mp hin
  obtain ⟨i, u, hw, -⟩ := h.started _ hmem m rfl
  exact ⟨i, u, hw⟩

theorem Driven.inBatch_unique (h : Driven c store₀ s) {t : Attempt} {m m' : ℕ}
    (hin : s.sys.InBatch t m) (hin' : s.sys.InBatch t m') : m = m' := by
  obtain ⟨txn, hmem⟩ := System.inBatch_iff.mp hin
  obtain ⟨txn', hmem'⟩ := System.inBatch_iff.mp hin'
  have heq : some m = some m' := congrArg (fun e => e.2.2) (h.good.recorded.unique hmem hmem' rfl)
  exact Option.some.inj heq

/-- Everything that is known of a run. -/
structure Switched (c : Config) (store₀ : DbKey → BitVec 32) (s : State n π) : Prop where
  driven : Driven c store₀ s
  sent : SentOk s
  order : ∀ i, OrderOk s i
  carried : Carried s
  ranked : Ranked s.sys

theorem Switched.step (h : Switched c store₀ s) (hreg : Regular s a)
    (hstep : step c s a = some s') : Switched c store₀ s' where
  driven := h.driven.move hreg (move_of_step hstep)
  sent := h.sent.move h.driven.inv hreg.1 (move_of_step hstep)
  order i := (h.order i).step h.sent ((move_of_step hstep).hotStep h.driven.inv i)
  carried := h.carried.move h.driven.inv h.driven.good.recorded h.sent (move_of_step hstep)
  ranked := h.ranked.move h.driven.good.ordered.slots (move_of_step hstep)

theorem switched_of_run (c : Config) (value : ℕ → DbKey → BitVec 32)
    (mem : ℕ → ℕ → HotTxnEntry Attempt) {as : List (Action n π)}
    (hreg : AlongRun (step c) Regular (State.init value mem) as)
    (hrun : run (step c) (State.init value mem) as = some s) :
    Switched c (System.initStore c value) s :=
  run_invariant_of_along (fun _ _ _ => Switched.step) ⟨driven_init c value mem,
    sentOk_init value mem, orderOk_init value mem, carried_init value mem, List.Pairwise.nil⟩
    hreg hrun

theorem batch_le_of_slot (hslots : System.SlotsOk s.sys) {t : Attempt} {b k : ℕ}
    (hmem : (t, b, k) ∈ s.sys.slots) (hnid : t.worker.nid = i.toNat) : b ≤ s.sys.batch i.toNat := by
  rw [← hnid]
  exact (hslots.below _ hmem).1

/-- A transaction has one slot. -/
theorem nodup_slotsBefore (hslots : System.SlotsOk s.sys) (i : Bool) (b : ℕ) :
    (s.slotsBefore i b).Nodup := by
  refine List.nodup_flatMap.mpr ⟨fun b' _ => ?_, ?_⟩
  · exact hslots.nodup.sublist ((List.filter_sublist).map _)
  · refine List.Pairwise.imp_of_mem ?_ List.nodup_range
    intro b₁ b₂ _ _ hne t ht₁ ht₂
    obtain ⟨-, k₁, hmem₁⟩ := mem_slotsIn.mp ht₁
    obtain ⟨-, k₂, hmem₂⟩ := mem_slotsIn.mp ht₂
    exact hne (congrArg (fun e => e.2.1) (List.inj_on_of_nodup_map hslots.nodup hmem₁ hmem₂ rfl))

theorem sentBy_sublist_packets (s : State n π) (i : Bool) :
    ((s.sentBy i).flatMap fun x => x.event.txns).Sublist s.packets :=
  (List.filter_sublist (l := s.sent)).flatMap _

section Order

variable (h : Switched c store₀ s) {t₁ t₂ : Attempt} {m₁ m₂ : ℕ}
include h

/-- When the clock of the node is past a transaction, its packet has been sent. -/
theorem Switched.mem_packets_of_clock {b m : ℕ} {t : Attempt} (hslot : t ∈ s.slotsIn i b)
    (hin : s.sys.InBatch t m) (hlow : roundsPerBatch * b + 1 ≤ m)
    (hclock : periodAt b + (m - roundsPerBatch * b) < (s.nodes i).entered) : t ∈ s.packets := by
  have hd := h.driven
  have hsent : t ∈ s.slotsBefore i (s.sys.batch i.toNat) ++ s.sentNow i → t ∈ s.packets := by
    rw [← (h.order i).once]
    exact fun ht => (sentBy_sublist_packets s i).subset ht
  obtain ⟨hnid, k, hmem⟩ := mem_slotsIn.mp hslot
  have hpos : 0 < (n i).toNat := by
    obtain ⟨j, u, hw⟩ := hd.worker_of_inBatch hin
    obtain rfl : j = i := toNat_injective (by rw [← hnid, hw]; rfl)
    exact u.pos
  have hle := batch_le_of_slot hd.good.ordered.slots hmem hnid
  -- an earlier batch has been sent, and in this one the clock is past the place of the packet
  rcases Nat.lt_or_eq_of_le hle with hlt | rfl
  · exact hsent (List.mem_append_left _ (mem_slotsBefore.mpr ⟨hnid, b, hlt, k, hmem⟩))
  have hnode := hd.inv.barriers.node i
  cases hhot : s.hot i with
  | none =>
    have hentered : (s.nodes i).entered ≤ periodAt (s.sys.batch i.toNat) :=
      hnode.entered_le_periodAt hpos hhot
    omega
  | some r =>
    have hentered : (s.nodes i).entered = periodAt (s.sys.batch i.toNat) + waits r.done :=
      hnode.entered_of_hot hpos hhot
    rw [← (h.order i).txns_of_hot h.sent hhot] at hslot
    rcases List.mem_append.mp hslot with hdone | htodo
    · exact hsent (List.mem_append_right _ ((sentNow_of_hot hhot).symm ▸ hdone))
    · -- the packet would be sent at a later clock
      obtain ⟨ev, hev, ht⟩ := List.mem_flatMap.mp htodo
      cases ev with
      | waitNodes | sendmsg => cases ht
      | sendmmsg w =>
        obtain ⟨e, he, rfl⟩ := List.mem_map.mp ht
        obtain ⟨pre, post, htodo⟩ := List.append_of_mem hev
        have hsplit : r.done ++ r.todo = (r.done ++ pre) ++ .sendmmsg w :: post := by
          rw [htodo, List.append_assoc]
        have hwaits := (h.sent.placed i r hhot).2.place _ w post hsplit e he
        obtain ⟨j, hj, rfl⟩ := h.sent.mem_queue hhot (List.mem_append_right _ hev) he
        have hmb := hd.inBatch_unique hin (h.carried.queue i j hj)
        rw [HotPeriod.waits_append, ← hmb] at hwaits
        omega

/-- Two packets in different mini-batches. -/
theorem Switched.sublist_of_lt (hm₁ : s.sys.InBatch t₁ m₁) (hm₂ : s.sys.InBatch t₂ m₂)
    (hlt : m₁ < m₂) (hc₁ : Committed s.sys.history t₁) (hsent : t₂ ∈ s.packets) :
    [t₁, t₂].Sublist s.packets := by
  have hd := h.driven
  -- what is known of a packet that was sent
  have hpacket : ∀ {t m}, s.sys.InBatch t m → t ∈ s.packets → ∃ x ∈ s.sent, t ∈ x.event.txns ∧
      m = roundsPerBatch * x.batch + x.stage ∧ 1 ≤ x.stage ∧ x.stage ≤ roundsPerBatch := by
    intro t m hm ht
    obtain ⟨x, hx, hxt⟩ := List.mem_flatMap.mp ht
    exact ⟨x, hx, hxt, hd.inBatch_unique hm (h.carried.sent x hx t hxt),
      h.sent.stage_of_txn hx hxt⟩
  obtain ⟨x₂, hx₂, hxt₂, heq₂, hlow₂, hhigh₂⟩ := hpacket hm₂ hsent
  -- the slot of the first one
  obtain ⟨⟨t, b, k⟩, hmem, rfl⟩ := List.mem_map.mp (hd.good.ordered.slots.has_slot t₁ m₁ hm₁ hc₁)
  obtain ⟨m', hm', hlow, hhigh⟩ := hd.slots _ hmem
  obtain rfl := hd.inBatch_unique hm₁ hm'
  obtain ⟨i, u, hw⟩ := hd.worker_of_inBatch hm₁
  have hslot : t ∈ s.slotsIn i b := mem_slotsIn.mpr ⟨by rw [hw]; rfl, k, hmem⟩
  have hsent₁ : t ∈ s.packets := by
    refine h.mem_packets_of_clock hslot hm₁ hlow ?_
    -- the node has come as far as the other one has left the barriers
    have hclock : x₂.clock ≤ (s.nodes i).entered :=
      (h.sent.clock x₂ hx₂).trans (hd.inv.barriers.left_le i x₂.node)
    simp only [Sending.clock, periodAt, roundsPerBatch_eq, waitsPerPeriod_eq] at *
    omega
  obtain ⟨x₁, hx₁, hxt₁, heq₁, hlow₁, hhigh₁⟩ := hpacket hm₁ hsent₁
  have hbefore : x₁.clock < x₂.clock := by
    simp only [Sending.clock, periodAt, roundsPerBatch_eq, waitsPerPeriod_eq] at *
    omega
  have hpair : [x₁, x₂].Sublist s.sent := by
    refine Conflict.pair_sublist_of_pairwise h.sent.sorted hx₁ hx₂ ?_ (Nat.not_le.mpr hbefore)
    rintro rfl
    exact Nat.lt_irrefl _ hbefore
  have happ : [t, t₂].Sublist ([x₁, x₂].flatMap fun x => x.event.txns) := by
    simp only [List.flatMap_cons, List.flatMap_nil, List.append_nil]
    exact (List.singleton_sublist.mpr hxt₁).append (List.singleton_sublist.mpr hxt₂)
  exact happ.trans (hpair.flatMap _)

/-- Two packets of one queue. -/
theorem Switched.sublist_of_slots {b k₁ k₂ : ℕ} (hmem₁ : (t₁, b, k₁) ∈ s.sys.slots)
    (hmem₂ : (t₂, b, k₂) ∈ s.sys.slots) (hnid₁ : t₁.worker.nid = i.toNat)
    (hnid₂ : t₂.worker.nid = i.toNat) (hlt : k₁ < k₂) (hsent : t₂ ∈ s.packets) :
    [t₁, t₂].Sublist s.packets := by
  have hslots := h.driven.good.ordered.slots
  have hsub : [t₁, t₂].Sublist (s.slotsIn i b) := by
    have hpair : [(t₁, b, k₁), (t₂, b, k₂)].Sublist s.sys.slots := by
      refine Conflict.pair_sublist_of_pairwise h.ranked hmem₁ hmem₂ ?_ fun hrank => ?_
      · intro heq
        have : k₁ = k₂ := congrArg (fun e => e.2.2) heq
        omega
      · have : k₂ < k₁ := hrank (hnid₂.trans hnid₁.symm) rfl
        omega
    have hfilter := (hpair.filter fun e => e.1.worker.nid = i.toNat ∧ e.2.1 = b).map Prod.fst
    simp only [List.filter_cons, hnid₁, hnid₂, and_self, decide_true, if_true, List.filter_nil]
      at hfilter
    exact hfilter
  have hle := batch_le_of_slot hslots hmem₂ hnid₂
  have hall : [t₁, t₂].Sublist (s.slotsBefore i (s.sys.batch i.toNat + 1)) := by
    have hone := List.singleton_sublist.mpr (List.mem_range.mpr (Nat.lt_succ_of_le hle))
    have hbatch := hone.flatMap (s.slotsIn i)
    rw [List.flatMap_singleton] at hbatch
    exact hsub.trans hbatch
  have hnodup := nodup_slotsBefore hslots i (s.sys.batch i.toNat + 1)
  rw [← (h.order i).sent_append_pending h.sent] at hall hnodup
  refine (Conflict.pair_sublist_left hall hnodup ?_).trans (sentBy_sublist_packets s i)
  -- the packet was sent by this node
  obtain ⟨x, hx, hxt⟩ := List.mem_flatMap.mp hsent
  obtain ⟨hnid, -⟩ := (h.order x.node).slot_of_sent h.sent hx rfl hxt
  have hnode : x.node = i := toNat_injective (hnid.symm.trans hnid₂)
  exact List.mem_flatMap.mpr ⟨x, List.mem_filter.mpr ⟨hx, decide_eq_true hnode⟩, hxt⟩

end Order

/-- **The packets at the switch extend the cold order.**  When the threads of both nodes run with
their barriers, every hot period begins with a queue that is not empty and every operation is a
write: if a committed call of `my_execute` releases a row before another one locks it, and the
packet of the other one has been sent, then the packet of the first one was sent before. -/
theorem packets_extend_cold_order (c : Config) (value : ℕ → DbKey → BitVec 32)
    (mem : ℕ → ℕ → HotTxnEntry Attempt) (as : List (Action n π)) (s : State n π)
    (hreg : AlongRun (step c) Regular (State.init value mem) as)
    (hrun : run (step c) (State.init value mem) as = some s) (l₁ l₂ : RowLock) (m₁ m₂ : ℕ)
    (hm₁ : s.sys.InBatch l₁.txn m₁) (hm₂ : s.sys.InBatch l₂.txn m₂)
    (hc₁ : Committed s.sys.history l₁.txn) (hitem : l₁.item = l₂.item)
    (hsub : [.unlock l₁, .lock l₂].Sublist s.sys.history) (hsent : l₂.txn ∈ s.packets) :
    [l₁.txn, l₂.txn].Sublist s.packets := by
  have h := switched_of_run c value mem hreg hrun
  have hordered := h.driven.good.ordered
  rcases hordered.batch_order hm₁ hm₂ hc₁ hitem hsub with hlt | ⟨rfl, hnid⟩
  · exact h.sublist_of_lt hm₁ hm₂ hlt hc₁ hsent
  · obtain ⟨⟨t₁, b, k₁⟩, hmem₁, rfl⟩ := List.mem_map.mp (hordered.slots.has_slot _ _ hm₁ hc₁)
    obtain ⟨x, hx, hxt⟩ := List.mem_flatMap.mp hsent
    obtain ⟨hnid₂, b₂, k₂, hmem₂⟩ := (h.order x.node).slot_of_sent h.sent hx rfl hxt
    obtain rfl := hordered.slots.one_queue _ hmem₁ _ hmem₂ hnid m₁ hm₁ hm₂
    rcases hordered.slots.ordered l₁ l₂ hsub _ hmem₁ _ hmem₂ rfl rfl hnid with hb | ⟨-, hk⟩
    · exact absurd hb (Nat.lt_irrefl _)
    · exact h.sublist_of_slots hmem₁ hmem₂ (hnid.trans hnid₂) hnid₂ hk hsent

/-- The lock of each of the two writes. -/
def lockOfKey3 (node : ℕ) : RowLock := ⟨⟨⟨node, 0⟩, 1⟩, 0, 3, true⟩

theorem packets_extend_cold_order_twoWrites :
    ∃ s, AlongRun (step System.twoNodes) Regular bothStart twoWrites ∧
      run (step System.twoNodes) bothStart twoWrites = some s ∧
      [.unlock (lockOfKey3 0), .lock (lockOfKey3 1)].Sublist s.sys.history ∧
      [(lockOfKey3 0).txn, (lockOfKey3 1).txn].Sublist s.packets := by
  have hrun : (run (step System.twoNodes) bothStart twoWrites).map (fun s =>
      decide (s.sys.InBatch (lockOfKey3 0).txn 1 ∧ s.sys.InBatch (lockOfKey3 1).txn 2 ∧
        .commit (lockOfKey3 0).txn ∈ s.sys.history ∧
        [.unlock (lockOfKey3 0), .lock (lockOfKey3 1)].Sublist s.sys.history ∧
        (lockOfKey3 1).txn ∈ s.packets)) = some true := by
    decide +kernel
  obtain ⟨s, hs, hall⟩ := Option.map_eq_some_iff.mp hrun
  obtain ⟨hm₁, hm₂, hc₁, hsub, hsent⟩ := of_decide_eq_true hall
  exact ⟨s, regular_twoWrites, hs, hsub, packets_extend_cold_order System.twoNodes _ _ twoWrites s
    regular_twoWrites hs (lockOfKey3 0) (lockOfKey3 1) 1 2 hm₁ hm₂ hc₁ rfl hsub hsent⟩

end Lockstep

end P4db
