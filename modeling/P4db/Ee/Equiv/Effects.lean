import P4db.Ee.Equiv.Stamps

/-!
# What a move means for the order of transactions

The order of transactions depends on little of the system: on the history, on the stamps of the
rows, on which calls are running and on the hot send queues.  `Effect` lists what moves do to these,
and `effect_of_move` says that there is nothing else, as long as every operation is a write.
-/

namespace P4db

open TwoPhase

theorem Phase.accessed_of_not_growing {ph : Phase} (h : ph.growing = false) (n : ℕ) :
    ph.accessed n = if ph.committed = true then n else 0 := by
  match ph with
  | .idle | .clear .commit _ | .clear .rollback _ | .waitPuts .commit | .waitPuts .rollback => rfl

theorem Phase.growing_of_ended {ph : Phase} (h : ph.rolledBack = true ∨ ph.committed = true) :
    ph.growing = false := by
  cases ph <;> first | rfl | exact absurd h nofun

namespace System

/-- The stamp that a call leaves: its identifier if it is a committed call of `my_execute`. -/
theorem due_of_not_growing {th : Thread} {i : ℕ} {op : Op} (hgrow : th.phase.growing = false)
    (hop : th.txn.cold[i]? = some op) (seen : TxnId) :
    due th i seen =
      if th.miniBatchNum ≠ none ∧ th.phase.committed = true then th.txn.id else seen := by
  have hi : i < th.txn.cold.length := (List.getElem?_eq_some_iff.mp hop).1
  simp only [due, Phase.accessed_of_not_growing hgrow, Option.isSome_iff_ne_none]
  cases th.phase.committed <;> simp [hi]

/-! ### Effects -/

/-- A thread is in the same call as before, and a commit is not taken back. -/
structure Continues (th th' : Thread) : Prop extends SameCall th th' where
  committed : th.phase.committed = true → th'.phase.committed = true

theorem Continues.refl (th : Thread) : Continues th th := ⟨SameCall.refl th, id⟩

/-- No call begins or returns. -/
structure Ongoing (s s' : System) : Prop where
  started : s'.started = s.started
  finished : s'.finished = s.finished
  threads : ∀ w, Continues (s.threads w) (s'.threads w)

/-- Nothing happens to the hot send queues. -/
structure SameQueues (s s' : System) : Prop where
  slots : s'.slots = s.slots
  batch : s'.batch = s.batch
  hotSendQ : s'.hotSendQ = s.hotSendQ

/-- A call that has not committed. -/
structure Pending (s : System) (w : NodeT) : Prop where
  running : (s.threads w).phase ≠ .idle
  committed : (s.threads w).phase.committed = false

/-- What moves do to the history, the stamps, the calls and the queues. -/
inductive Effect (c : Config) (s : System) : Action → System → Prop
  | enter {s' w txn mb id} (hphase : (s.threads w).phase = .idle)
      (hid : IdOk w { txn with id := id } mb)
      (hstart : s'.started =
        (⟨w, (s.threads w).seq + 1⟩, { txn with id := id }, mb) :: s.started)
      (hfin : s'.finished = s.finished) (hseq : (s'.threads w).seq = (s.threads w).seq + 1)
      (hother : ∀ w', w' ≠ w → s'.threads w' = s.threads w') (hqueues : SameQueues s s')
      (hhist : s'.history = s.history) (hlast : s'.lastAcq c = s.lastAcq c) :
      Effect c s (.start w txn mb) s'
  | finish {action s' w rc} (hstart : s'.started = s.started)
      (hfin : s'.finished = (s.attempt w, rc) :: s.finished) (hphase : (s'.threads w).phase = .idle)
      (hother : ∀ w', w' ≠ w → s'.threads w' = s.threads w') (hqueues : SameQueues s s')
      (hhist : s'.history = s.history) (hlast : s'.lastAcq c = s.lastAcq c) : Effect c s action s'
  | doneSending {s' n} (hgo : Ongoing s s') (hhist : s'.history = s.history)
      (hlast : s'.lastAcq c = s.lastAcq c) (hslots : s'.slots = s.slots)
      (hhotSendQ : s'.hotSendQ = Function.update s.hotSendQ n (s.hotSendQ n).doneSending)
      (hbatch : s'.batch = Function.update s.batch n (s.batch n + 1)) :
      Effect c s (.doneSending n) s'
  | silent {action s'} (hgo : Ongoing s s') (hqueues : SameQueues s s')
      (hhist : s'.history = s.history) (hlast : s'.lastAcq c = s.lastAcq c) : Effect c s action s'
  | access {action s' e} (hgo : Ongoing s s') (hqueues : SameQueues s s')
      (hhist : s'.history = s.history ++ [e]) (hlast : s'.lastAcq c = s.lastAcq c)
      (he : e.access ≠ none) : Effect c s action s'
  | lock {action s' w l} (hgo : Ongoing s s') (hqueues : SameQueues s s')
      (hhist : s'.history = s.history ++ [.lock l]) (hlast : s'.lastAcq c = s.lastAcq c)
      (hl : l.txn = s.attempt w) (hpend : Pending s w)
      (hle : (s.threads w).miniBatchNum ≠ none → s.lastAcq c l.item ≤ (s.threads w).txn.id) :
      Effect c s action s'
  | commit {action s' w} (hgo : Ongoing s s') (hqueues : SameQueues s s')
      (hhist : s'.history = s.history ++ [.commit (s.attempt w)])
      (hlast : s'.lastAcq c = s.lastAcq c) (hpend : Pending s w)
      (hcom : (s'.threads w).phase.committed = true) (hrel : ¬Released s.history (s.attempt w))
      (hmb : (s.threads w).miniBatchNum = none) : Effect c s action s'
  | alloc {action s' w mb q} (hgo : Ongoing s s')
      (hhist : s'.history = s.history ++ [.commit (s.attempt w)])
      (hlast : s'.lastAcq c = s.lastAcq c) (hpend : Pending s w)
      (hcom : (s'.threads w).phase.committed = true) (hrel : ¬Released s.history (s.attempt w))
      (hmb : (s.threads w).miniBatchNum = some mb)
      (hq : (s.hotSendQ w.nid).allocSlot mb (s.attempt w) = some q)
      (hhotSendQ : s'.hotSendQ = Function.update s.hotSendQ w.nid q) (hbatch : s'.batch = s.batch)
      (hslots : s'.slots =
        s.slots ++ [(s.attempt w, s.batch w.nid, (s.hotSendQ w.nid).sendQTail)]) :
      Effect c s action s'
  | unlock {action s' w l} (hgo : Ongoing s s') (hqueues : SameQueues s s')
      (hhist : s'.history = s.history ++ [.unlock l]) (hl : l.txn = s.attempt w)
      (hphase : (s.threads w).phase ≠ .idle)
      (hne : ∀ k, k ≠ l.item → s'.lastAcq c k = s.lastAcq c k)
      (hstamp : s'.lastAcq c l.item =
        if (s.threads w).miniBatchNum ≠ none ∧ (s.threads w).phase.committed = true
        then (s.threads w).txn.id else s.lastAcq c l.item)
      (hle : (s.threads w).miniBatchNum ≠ none → s.lastAcq c l.item ≤ (s.threads w).txn.id) :
      Effect c s action s'

/-! ### There are no others -/

variable {c : Config} {s s' : System} {a : Ledger} {w : NodeT} {store₀ : DbKey → BitVec 32}
  {action : Action}

theorem Ongoing.update {ph ph' : Phase} {log : List UndoAction} (hphase : (s.threads w).phase = ph)
    (hthreads : s'.threads =
      Function.update s.threads w { s.threads w with phase := ph', log := log })
    (hstart : s'.started = s.started) (hfin : s'.finished = s.finished) (hne : ph ≠ .idle)
    (hne' : ph' ≠ .idle) (hcom : ph.committed = true → ph'.committed = true) : Ongoing s s' := by
  refine ⟨hstart, hfin, fun w' => ?_⟩
  rw [hthreads]
  by_cases hw : w' = w
  · subst hw
    rw [Function.update_self]
    subst hphase
    exact ⟨⟨rfl, rfl, rfl, iff_of_false hne' hne⟩, hcom⟩
  · rw [Function.update_of_ne hw]
    exact Continues.refl _

theorem Ongoing.of_threads (hthreads : s'.threads = s.threads) (hstart : s'.started = s.started)
    (hfin : s'.finished = s.finished) : Ongoing s s' :=
  ⟨hstart, hfin, fun w => by rw [hthreads]; exact Continues.refl _⟩

@[simp] theorem committed_clear (rc : RC) (j : ℕ) :
    (Phase.clear rc j).committed = decide (rc = .commit) := by
  cases rc <;> rfl

@[simp] theorem committed_waitPuts (rc : RC) :
    (Phase.waitPuts rc).committed = decide (rc = .commit) := by
  cases rc <;> rfl

theorem lastAcq_eq (hrows : s'.rows = s.rows) : s'.lastAcq c = s.lastAcq c :=
  funext (lastAcq_of_rows hrows)

theorem setThread_self (s : System) (w : NodeT) (th : Thread) : (s.setThread w th).threads w = th :=
  Function.update_self _ _ _

theorem setThread_of_ne (s : System) {w w' : NodeT} {th : Thread} (hw : w' ≠ w) :
    (s.setThread w th).threads w' = s.threads w' :=
  Function.update_of_ne hw _ _

theorem committed_setPhase {ph : Phase} (hcom : ph.committed = true) :
    ((s.setPhase w ph).threads w).phase.committed = true := by
  rw [setPhase, setThread_self]
  exact hcom

theorem pending_of_phase {ph : Phase} (hphase : (s.threads w).phase = ph) (hne : ph ≠ .idle)
    (hcom : ph.committed = false) : Pending s w :=
  ⟨hphase ▸ hne, hphase ▸ hcom⟩

/-- A thread goes on without any effect. -/
theorem effect_goOn {ph ph' : Phase} {log : List UndoAction} (hphase : (s.threads w).phase = ph)
    (hs : s' = { s with
      threads := Function.update s.threads w { s.threads w with phase := ph', log := log }
      net := s'.net, openFutures := s'.openFutures, nextId := s'.nextId
      putResponses := s'.putResponses })
    (hne : ph ≠ .idle) (hne' : ph' ≠ .idle) (hcom : ph.committed = true → ph'.committed = true) :
    Effect c s action s' := by
  rw [hs]
  exact .silent (.update hphase rfl rfl rfl hne hne' hcom) ⟨rfl, rfl, rfl⟩ rfl (lastAcq_eq rfl)

/-- A release writes the stamp that its lock carries, the one that the call leaves. -/
theorem effect_release {l : RowLock} (h : StampsOk c s) (hc : Coupled c store₀ s a)
    (hmove : Move c s action s') (hgo : Ongoing s s') (hqueues : SameQueues s s')
    (hhist : s'.history = s.history ++ [.unlock l]) : Effect c s action s' := by
  have hrel := (hc.change hmove).releases_of_history hhist
  obtain ⟨op, hop, hl, hcar, hend⟩ := lastAcq_of_releases hc hmove hrel
  have hitem : l.item = op.id := congrArg Lock.item hl
  refine .unlock hgo hqueues hhist (congrArg Lock.txn hl) (hc.phase_ne_idle_of_carries hcar hop)
    (fun k hk => ?_) ?_ fun hmb => hitem ▸ (h _).ordered _ _ op hcar hop hmb
  · exact congrArg Row.lastAcq (hrel.others _ fun heq => hk (Prod.mk.inj heq).2)
  · have hv := (h _).carried _ _ op hcar hop
    rwa [due_of_not_growing (Phase.growing_of_ended hend) hop, ← hitem] at hv

/-- **What moves do.** -/
theorem effect_of_move (h : StampsOk c s) (hc : Coupled c store₀ s a) (hr : Recorded s)
    (hcalls : CallsOk s) (hmove : Move c s action s') : Effect c s action s' := by
  have hmove' := hmove
  cases hmove with
  | enter hphase _ hid =>
    exact .enter hphase hid rfl rfl (congrArg Thread.seq (setThread_self _ _ _))
      (fun w' hw => setThread_of_ne _ hw) ⟨rfl, rfl, rfl⟩ rfl (lastAcq_eq rfl)
  | endAcquire hphase => exact effect_goOn hphase rfl nofun nofun nofun
  | refuse hphase => exact effect_goOn hphase rfl nofun nofun nofun
  | @lockLocal w i op row _ hphase hop hlocal hacq =>
    -- the row is one of this node, and its stamp is not above the one of the call
    obtain ⟨hrow, hle⟩ := lastAcq_of_acquire hacq
    have howner : c.owner op.id = w.nid := ((hc.own w).thread.isLocal_iff hop).mp hlocal
    have hne : (s.threads w).phase ≠ .idle := by rw [hphase]; exact nofun
    refine .lock (.update hphase rfl rfl rfl nofun nofun nofun) ⟨rfl, rfl, rfl⟩ rfl
      (funext (lastAcq_update rfl hrow)) rfl (pending_of_phase hphase nofun rfl) fun hmb => ?_
    rw [← howner] at hle
    exact hle (hcalls.valid hr hne hmb)
  | request hphase => exact effect_goOn hphase rfl nofun nofun nofun
  | awaitRefused hphase => exact effect_goOn hphase rfl nofun nofun nofun
  | awaitGranted hphase => exact effect_goOn hphase rfl nofun nofun nofun
  | toAlloc hphase => exact effect_goOn hphase rfl nofun nofun nofun
  | @commit w i _ hphase hop hmb =>
    have hrel := (hc.own w).thread.growing (by rw [hphase]; rfl)
    rw [hc.history] at hrel
    exact .commit (.update hphase rfl rfl rfl nofun
      nofun nofun) ⟨rfl, rfl, rfl⟩ rfl (lastAcq_eq rfl)
      (pending_of_phase hphase nofun rfl) (committed_setPhase rfl)
      hrel hmb
  | writeRow hphase =>
    exact .access (.update hphase rfl rfl rfl nofun nofun nofun) ⟨rfl, rfl, rfl⟩ rfl
      (funext (lastAcq_update rfl rfl)) nofun
  | readRow hphase =>
    exact .access (.update hphase rfl rfl rfl nofun
      nofun nofun) ⟨rfl, rfl, rfl⟩ rfl (lastAcq_eq rfl) nofun
  | writePacket hphase =>
    exact .access (.update hphase rfl rfl rfl nofun
      nofun nofun) ⟨rfl, rfl, rfl⟩ rfl (lastAcq_eq rfl) nofun
  | readPacket hphase =>
    exact .access (.update hphase rfl rfl rfl nofun
      nofun nofun) ⟨rfl, rfl, rfl⟩ rfl (lastAcq_eq rfl) nofun
  | accessNull hphase => exact effect_goOn hphase rfl nofun nofun nofun
  | @alloc w mb q _ hphase hmb hq =>
    have hrel := (hc.own w).thread.growing (by rw [hphase]; rfl)
    rw [hc.history] at hrel
    exact .alloc (.update hphase rfl rfl rfl nofun nofun nofun) rfl (lastAcq_eq rfl)
      (pending_of_phase hphase nofun rfl) (committed_setPhase rfl)
      hrel hmb hq rfl rfl rfl
  | endClear hphase => exact effect_goOn hphase rfl nofun nofun (by simp)
  | clearLocal hphase =>
    exact effect_release h hc hmove' (.update hphase rfl rfl rfl nofun nofun (by simp))
      ⟨rfl, rfl, rfl⟩ rfl
  | clearSkip hphase => exact effect_goOn hphase rfl nofun nofun (by simp)
  | clearRemote hphase => exact effect_goOn hphase rfl nofun nofun (by simp)
  | finish hphase =>
    exact .finish rfl rfl (congrArg Thread.phase (setThread_self _ _ _))
      (fun w' hw => setThread_of_ne _ hw) ⟨rfl, rfl, rfl⟩ rfl (lastAcq_eq rfl)
  | getReqRefused =>
    exact .silent (.of_threads rfl rfl rfl) ⟨rfl, rfl, rfl⟩ rfl (lastAcq_eq rfl)
  | @getReqGranted p row hp htype hacq =>
    obtain ⟨op, act, hmsg⟩ := (hc.own p.msg.att.worker).msg p hp rfl
    -- the request carries the stamp of the thread that waits for the answer
    obtain ⟨hdst, -, -⟩ := hmsg.getReq htype
    obtain ⟨hphase, -⟩ := hmsg.waiting (by rw [htype]; rfl)
    obtain ⟨hrow, hle⟩ := lastAcq_of_acquire hacq
    rw [(h _).asked p hp rfl htype, TxnId.ofPacked_getPacked, hdst, ← hmsg.rid] at hle
    have hne : (s.threads p.msg.att.worker).phase ≠ .idle := by rw [hphase]; exact nofun
    exact .lock (.of_threads rfl rfl rfl) ⟨rfl, rfl, rfl⟩ rfl (funext (lastAcq_update rfl hrow))
      hmsg.seq (pending_of_phase hphase nofun rfl) fun hmb => hle (hcalls.valid hr hne hmb)
  | @getRes p tid i hp htype hfut =>
    refine .silent ⟨rfl, rfl, fun w' => ?_⟩ ⟨rfl, rfl, rfl⟩ rfl (lastAcq_eq rfl)
    -- only the log of the thread changes
    by_cases hw : w' = ⟨p.dst, tid⟩
    · subst hw
      rw [setThread_self]
      exact ⟨⟨rfl, rfl, rfl, Iff.rfl⟩, id⟩
    · rw [setThread_of_ne _ hw]
      exact Continues.refl _
  | putReq => exact effect_release h hc hmove' (.of_threads rfl rfl rfl) ⟨rfl, rfl, rfl⟩ rfl
  | putRes => exact .silent (.of_threads rfl rfl rfl) ⟨rfl, rfl, rfl⟩ rfl (lastAcq_eq rfl)
  | doneSending => exact .doneSending (.of_threads rfl rfl rfl) rfl (lastAcq_eq rfl) rfl rfl rfl

end System

end P4db
