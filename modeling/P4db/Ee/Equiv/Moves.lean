import P4db.Ee.Equiv.Coupling

/-!
# Every move keeps the coupling

One lemma for each move of a thread: the locking machine makes the corresponding step, or none, and
the invariant holds again.
-/

namespace P4db.System

open TwoPhase

variable {c : Config} {s s' : System} {a a' : Ledger} {w : NodeT} {store₀ : DbKey → BitVec 32}
  {op : Op} {rc : RC} {f : TupleFuture} {res : TupleMsg} {act : UndoAction} {i j : ℕ}

/-! ### Beginning and end of a call -/

theorem Coupled.enter (h : Coupled c store₀ s a) {txn : Txn} {mb : Option ℕ}
    (hphase : (s.threads w).phase = .idle) (hplaced : Placed c w.nid txn) :
    Coupled c store₀ (s.enter w txn mb) a := by
  have ho := h.own w
  -- nothing has happened under the new number yet
  have hnew : ∀ e ∈ a.history, e.txn ≠ ⟨w, (s.threads w).seq + 1⟩ := by
    intro e he heq
    have hle := ho.thread.fresh e he (by rw [heq])
    rw [heq] at hle
    exact Nat.lt_irrefl _ hle
  have hset : Coupled c store₀
      (s.setThread w ⟨.acquire 0, (s.threads w).seq + 1, txn, mb, []⟩) a := by
    refine h.setThread ⟨hplaced, ?_, ?_, ?_, ?_, nofun, ?_⟩ ?_ ?_
    · intro m hm
      exact Option.some.inj hm
    · intro i act hact
      rw [List.getElem?_nil] at hact
      cases hact
    · rintro - ⟨l, hl, ht⟩
      exact hnew _ hl ht
    · rintro - ⟨l, v, hl, ht⟩
      exact hnew _ hl ht
    · exact fun e he hw => Nat.le_succ_of_le (ho.thread.fresh e he hw)
    · exact fun l hl hw => absurd hw (ho.not_held_of_idle hphase hl)
    · exact fun p hp hw => absurd hw (ho.no_msg_of_idle hphase p hp)
  exact hset.congr rfl rfl rfl rfl rfl rfl rfl

theorem Coupled.finish (h : Coupled c store₀ s a) (hphase : (s.threads w).phase = .waitPuts rc)
    (hputs : s.putResponses w = 0) :
    Coupled c store₀ { s.setThread w { s.threads w with phase := .idle, log := [] } with
      finished := (s.attempt w, rc) :: s.finished } a := by
  have ho := h.own w
  have hset : Coupled c store₀
      (s.setThread w { s.threads w with phase := .idle, log := [] }) a := by
    refine h.setThread ⟨ho.thread.placed, ?_, ?_, nofun, nofun, nofun, ho.thread.fresh⟩ ?_ ?_
    · intro m hm
      exact Option.some.inj hm
    · intro i act hact
      rw [List.getElem?_nil] at hact
      cases hact
    · -- a lock that is still held would have a message on the way
      intro l hl hw
      have hcl := ho.not_held_of_cleared h.net hputs hl hw
      rw [hphase] at hcl
      cases hcl
    · intro p hp hw
      obtain ⟨op, act, hmsg⟩ := ho.msg p hp hw
      exact nomatch hphase.symm.trans (hmsg.waiting (h.net.not_isPut hputs hp hw)).1
  exact hset.congr rfl rfl rfl rfl rfl rfl rfl

/-! ### Changes of phase -/

theorem Coupled.endAcquire (h : Coupled c store₀ s a) (hphase : (s.threads w).phase = .acquire i)
    (hop : (s.threads w).txn.cold[i]? = none) : Coupled c store₀ (s.setPhase w (.access 0)) a := by
  have hth := (h.own w).thread
  have hlen : (s.threads w).log.length = i := hth.len i (by rw [hphase]; rfl)
  refine h.setPhase (fun j _ => by rw [hphase]; exact ⟨rfl, nofun, nofun⟩) (fun m hm => ?_)
    (fun _ => hth.growing (by rw [hphase]; rfl)) nofun nofun
  have hle := hth.log_length_le
  have hge := List.getElem?_eq_none_iff.mp hop
  have hm : (s.threads w).txn.cold.length = m := Option.some.inj hm
  omega

theorem Coupled.refuse (h : Coupled c store₀ s a) (hphase : (s.threads w).phase = .acquire i) :
    Coupled c store₀ (s.setPhase w (.clear .rollback 0)) a := by
  have hth := (h.own w).thread
  refine h.setPhase (fun j _ => by rw [hphase]; exact ⟨rfl, nofun, nofun⟩) nofun nofun
    (fun _ => hth.clean (by rw [hphase]; rfl)) nofun

theorem Coupled.toAlloc (h : Coupled c store₀ s a) (hphase : (s.threads w).phase = .access i) :
    Coupled c store₀ (s.setPhase w .alloc) a := by
  have hth := (h.own w).thread
  exact h.setPhase (fun j _ => by rw [hphase]; exact ⟨rfl, nofun, nofun⟩)
    (fun m hm => hth.len m (by rw [hphase]; exact hm))
    (fun _ => hth.growing (by rw [hphase]; rfl)) nofun nofun

theorem Coupled.endClear (h : Coupled c store₀ s a) (hphase : (s.threads w).phase = .clear rc j)
    (hact : (s.threads w).log[j]? = none) : Coupled c store₀ (s.setPhase w (.waitPuts rc)) a := by
  have hth := (h.own w).thread
  have hle := List.getElem?_eq_none_iff.mp hact
  refine h.setPhase (fun i hi => ?_) (fun m hm => hth.len m ?_) nofun (fun hc => hth.clean ?_)
    (fun hc => hth.committed ?_)
  · rw [hphase]
    refine ⟨?_, nofun, fun hr => ?_⟩
    · exact (decide_eq_true (Nat.lt_of_lt_of_le hi hle)).symm
    · cases rc
      · cases hr
      · rfl
  · rw [hphase]
    cases rc
    · exact hm
    · cases hm
  · rw [hphase]
    cases rc
    · cases hc
    · rfl
  · rw [hphase]
    cases rc
    · rfl
    · cases hc

/-- A thread that has released nothing enters `commit`. -/
theorem Coupled.commit (h : Coupled c store₀ s a) (hgrow : (s.threads w).phase.growing = true)
    (hawait : ∀ i, (s.threads w).phase ≠ .await i)
    (hlen : (s.threads w).log.length = (s.threads w).txn.cold.length) :
    ∃ a', Step a a' ∧ Coupled c store₀
      ((s.setPhase w (.clear .commit 0)).record (.commit (s.attempt w))) a' := by
  have ho := h.own w
  have hrel := ho.thread.growing hgrow
  have hstep : Step a (a.commit (s.attempt w)) := .commit hrel
  have hrec : Coupled c store₀ (s.record (.commit (s.attempt w))) (a.commit (s.attempt w)) := by
    refine h.move w (h.inv.step hstep) (congrArg (· ++ _) h.history) ⟨h.rows.lock, h.rows.value⟩
      ⟨h.net.nodup, h.net.futs, h.net.puts⟩ ⟨?_, ho.held, ?_⟩ (fun w' hw => frame_commit hw)
      (fun _ _ => rfl) (fun _ _ => Iff.rfl) (fun _ _ _ _ => id)
    · refine ho.thread.step rfl rfl (s.threads w).log.length (fun _ _ => rfl)
        (fun _ _ _ => frameAt_commit _ _) (fun j _ _ => Phase.Frame.refl _ _) (fun act hact => ?_)
        ho.thread.len (fun _ => not_released_concat hrel nofun)
        (fun hc => not_wrote_concat (ho.thread.clean hc) nofun)
        (fun hc => List.mem_append_left _ (ho.thread.committed hc))
        (fun e he => mem_or_seq_of_mem_concat rfl he)
      have hnone := List.getElem?_eq_none (Nat.le_refl (s.threads w).log.length)
      exact nomatch hnone.symm.trans hact
    · exact fun p hp hw => absurd hw (ho.no_msg hgrow hawait p hp)
  refine ⟨_, hstep, hrec.setPhase (fun i _ => ⟨?_, fun h => absurd h (hawait i), fun h => ?_⟩)
    (fun m hm => hlen.trans (Option.some.inj hm)) nofun nofun
    fun _ => List.mem_append_right _ List.mem_cons_self⟩
  · exact (Phase.cleared_of_growing hgrow i).symm
  · exact Bool.noConfusion ((Phase.rolledBack_of_growing hgrow).symm.trans h)

/-! ### Locks on rows of the own node -/

theorem Coupled.lockLocal (h : Coupled c store₀ s a) {row : Row}
    (hphase : (s.threads w).phase = .acquire i) (hop : (s.threads w).txn.cold[i]? = some op)
    (hlocal : op.locInfo.isLocal = true)
    (hacq : (s.rows (w.nid, op.id)).acquire op.mode (s.threads w).txn.id = some (some row)) :
    ∃ a', Step a a' ∧ Coupled c store₀ (((s.setRow w.nid op.id row).setThread w
      { s.threads w with
        phase := .acquire (i + 1)
        log := (s.threads w).log ++ [localEntry op (s.rows (w.nid, op.id)).lastAcq] }).record
      (.lock (rowLock w (s.threads w) i op))) a' := by
  have ho := h.own w
  have hth := ho.thread
  have hgrow : (s.threads w).phase.growing = true := by rw [hphase]; rfl
  have hlen : (s.threads w).log.length = i := hth.len i (by rw [hphase]; rfl)
  have howner : c.owner op.id = w.nid := (hth.isLocal_iff hop).mp hlocal
  have hmode := @lockMode_rowLock w (s.threads w) i op (mode_ne_invalid_of_cold hop)
  rw [← howner, ← hmode] at hacq
  have hfresh : rowLock w (s.threads w) i op ∉ a.held := fun hl =>
    Nat.lt_irrefl i (hlen ▸ (ho.held _ hl rfl).logged)
  have hstep : Step a (a.lock (rowLock w (s.threads w) i op)) :=
    .lock (hth.growing hgrow) hfresh (h.rows.compatible _ hacq)
  have hrows : RowsOk c (Function.update s.rows (w.nid, op.id) row)
      (a.lock (rowLock w (s.threads w) i op)) := by
    rw [← howner]
    exact h.rows.grant (rowLock w (s.threads w) i op) hacq
  refine ⟨_, hstep, h.move w (h.inv.step hstep) (congrArg (· ++ _) h.history) hrows
    ⟨h.net.nodup, h.net.futs, h.net.puts⟩ (own_of (Function.update_self _ _ _) ?_ ?_ ?_)
    (fun w' hw => frame_lock hw) (fun w' hw => Function.update_of_ne (Ne.symm hw) _ _)
    (fun _ _ => Iff.rfl) (fun _ _ _ _ => id)⟩
  · refine hth.step rfl rfl i (fun j hj => ?_) (fun j op' hj => frameAt_lock (rowLock_ne hj _ _))
      (fun j _ _ => by rw [hphase]; exact ⟨rfl, by simp, fun hb => absurd hb Bool.false_ne_true⟩)
      (fun act hact => ⟨op, hop, ?_⟩)
      (fun m hm => ?_) (fun _ => not_released_concat (hth.growing hgrow) (by simp))
      (fun _ => not_wrote_concat (hth.clean (by rw [hphase]; rfl)) (by simp))
      (fun hb => absurd hb Bool.false_ne_true)
      (fun e he => mem_or_seq_of_mem_concat rfl he)
    · exact getElem?_concat_of_ne (hlen.symm ▸ hj)
    · obtain rfl : localEntry op (s.rows (w.nid, op.id)).lastAcq = act :=
        Option.some.inj ((hlen ▸ List.getElem?_concat_length).symm.trans hact)
      refine ⟨rfl, rfl, fun _ => ⟨rfl, rfl, fun _ => List.mem_cons_self, ?_⟩, fun hremote => ?_⟩
      · exact fun hb => absurd hb Bool.false_ne_true
      exact Bool.noConfusion (hremote.symm.trans hlocal)
    · rw [List.length_append, hlen]
      exact Option.some.inj hm
  · intro l hl hw
    rcases List.mem_cons.mp hl with rfl | hl
    · exact ⟨⟨op, hop, rfl⟩, by simp [rowLock, hlen], fun hb => absurd hb Bool.false_ne_true⟩
    · exact (ho.held l hl hw).mono rfl rfl (by simp)
        (fun hb => absurd hb Bool.false_ne_true) fun p hp _ _ => hp
  · exact fun p hp hw => absurd hw (ho.no_msg hgrow (by rw [hphase]; simp) p hp)

/-! ### Locks on rows of other nodes -/

theorem Coupled.request (h : Coupled c store₀ s a) (hphase : (s.threads w).phase = .acquire i)
    (hop : (s.threads w).txn.cold[i]? = some op) (hremote : op.locInfo.isLocal = false)
    (hnew : s.openFutures (w.nid, s.nextId w.nid) = none) :
    Coupled c store₀ (({ s with
      nextId := Function.update s.nextId w.nid (s.nextId w.nid + 1)
      openFutures := Function.update s.openFutures (w.nid, s.nextId w.nid)
        (some (w.tid, i)) }.setThread w
      { s.threads w with
        phase := .await i
        log := (s.threads w).log ++ [remoteEntry op] }).send
      op.locInfo.target ⟨.tupleGetReq, ⟨w.nid, 0⟩, s.nextId w.nid, op.id, op.mode,
        (s.threads w).txn.id.getPacked, 0, s.attempt w, i⟩) a := by
  have ho := h.own w
  have hth := ho.thread
  have hgrow : (s.threads w).phase.growing = true := by rw [hphase]; rfl
  have hlen : (s.threads w).log.length = i := hth.len i (by rw [hphase]; rfl)
  have hself : ((s.threads w).log ++ [remoteEntry op])[i]? = some (remoteEntry op) :=
    hlen ▸ List.getElem?_concat_length
  have hno := ho.no_msg hgrow (by rw [hphase]; exact nofun)
  have hmode := mode_ne_invalid_of_cold hop
  -- a key that is in use is not the new one
  have hfuts : ∀ key x, s.openFutures key = some x →
      Function.update s.openFutures (w.nid, s.nextId w.nid) (some (w.tid, i)) key = some x := by
    intro key x hx
    rw [Function.update_of_ne _, hx]
    rintro rfl
    exact nomatch hnew.symm.trans hx
  refine h.move w h.inv h.history h.rows ⟨?_, ?_, ?_⟩ (own_of (Function.update_self _ _ _) ?_ ?_ ?_)
    (fun w' _ => Frame.refl a w') (fun w' hw => Function.update_of_ne (Ne.symm hw) _ _) ?_
    (fun w' _ id j hx => hfuts _ _ hx)
  · -- the thread had no message on the way, so that its token is new
    refine List.nodup_cons.mpr ⟨fun hmem => ?_, h.net.nodup⟩
    obtain ⟨p, hp, htoken⟩ := List.mem_map.mp hmem
    exact hno p hp (congrArg (fun t : Attempt × ℕ => t.1.worker) htoken)
  · -- the id that is given out is below the next one
    intro n id x hx
    show id < Function.update s.nextId w.nid (s.nextId w.nid + 1) n
    by_cases hkey : (n, id) = (w.nid, s.nextId w.nid)
    · obtain ⟨rfl, rfl⟩ := Prod.mk.inj hkey
      rw [Function.update_self]
      exact Nat.lt_succ_self _
    · have hlt := h.net.futs n id x ((Function.update_of_ne hkey _ _).symm.trans hx)
      by_cases hn : n = w.nid
      · subst hn
        rw [Function.update_self]
        exact Nat.lt_succ_of_lt hlt
      · rwa [Function.update_of_ne hn]
  · intro w'
    rw [System.send, List.countP_cons]
    exact h.net.puts w'
  · refine hth.step rfl rfl i (fun j hj => getElem?_concat_of_ne (hlen.symm ▸ hj))
      (fun _ _ _ => FrameAt.refl _ _)
      (fun j _ _ => by rw [hphase]; exact ⟨rfl, nofun, nofun⟩) (fun act hact => ⟨op, hop, ?_⟩)
      (fun m hm => ?_) (fun _ => hth.growing hgrow) (fun _ => hth.clean (by rw [hphase]; rfl)) nofun
      (fun e he => Or.inl he)
    · obtain rfl := Option.some.inj (hself.symm.trans hact)
      refine ⟨rfl, rfl, fun hlocal => ?_, fun _ => ⟨?_, .waiting rfl⟩⟩
      · exact Bool.noConfusion (hremote.symm.trans hlocal)
      · exact congrArg some (hth.target_eq hop)
    · rw [List.length_append, hlen]
      exact Option.some.inj hm
  · exact fun l hl hw => (ho.held l hl hw).mono rfl rfl (by simp) nofun
      fun p hp _ _ => List.mem_cons_of_mem _ hp
  · -- the request is the only message of the thread
    intro p hp hw
    rcases List.mem_cons.mp hp with rfl | hp
    · refine ⟨op, remoteEntry op, rfl, hop, hself, hremote, rfl, rfl,
        fun _ => ⟨rfl, rfl, rfl, Function.update_self _ _ _⟩, nofun, fun _ => ⟨?_, rfl, ?_⟩, nofun,
        nofun, nofun⟩
      · exact hth.target_eq hop
      · exact fun hl => Nat.lt_irrefl i (hlen ▸ (ho.held _ hl rfl).logged)
    · exact absurd hw (hno p hp)
  · intro p hw
    refine List.mem_cons.trans (or_iff_right ?_)
    rintro rfl
    exact hw rfl

/-- A thread that has its answer has no message on the way. -/
theorem Own.no_msg_of_get (ho : Own c s a w) (hphase : (s.threads w).phase = .await i)
    (hact : (s.threads w).log[i]? = some act) (hget : act.future.get = some f) :
    ∀ p ∈ s.net, p.msg.att.worker ≠ w := by
  intro p hp hw
  obtain ⟨op, act', hmsg⟩ := ho.msg p hp hw
  cases hput : p.msg.type.isPut with
  | true =>
    have hcl := (hmsg.releasing hput).1
    rw [hphase] at hcl
    cases hcl
  | false =>
    obtain ⟨hphase', hpkt, htuple, -⟩ := hmsg.waiting hput
    have hi : i = p.msg.op := Phase.await.inj (hphase.symm.trans hphase')
    obtain rfl := Option.some.inj (hact.symm.trans (hi ▸ hmsg.act_eq))
    rw [TupleFuture.get, htuple, hpkt] at hget
    cases hget

theorem FutureOk.of_exception {l : RowLock} {mode : AccessMode} {ph : Phase}
    (hf : f.tuple = .exception) (hph : ph.rolledBack = true) (hnot : l ∉ a.held) :
    FutureOk a l mode ph i f := by
  obtain ⟨pkt, tuple, acq⟩ := f
  obtain rfl : tuple = .exception := hf
  exact .refused hph hnot

theorem Coupled.awaitRefused (h : Coupled c store₀ s a) (hphase : (s.threads w).phase = .await i)
    (hact : (s.threads w).log[i]? = some act) (hget : act.future.get = some f)
    (hf : f.tuple = .exception) :
    Coupled c store₀ (s.setThread w
      { s.threads w with
        phase := .clear .rollback 0, log := (s.threads w).log.set i { act with future := f } })
          a := by
  have ho := h.own w
  have hth := ho.thread
  have hlt : i < (s.threads w).log.length := (List.getElem?_eq_some_iff.mp hact).1
  refine h.setThread ?_ ?_ ?_
  · refine hth.step rfl rfl i (fun j hj => List.getElem?_set_ne hj.symm)
      (fun _ _ _ => FrameAt.refl _ _) (fun j hj _ => ?_) (fun act' hact' => ?_) nofun nofun
      (fun _ => hth.clean (by rw [hphase]; rfl)) nofun (fun e he => Or.inl he)
    · rw [hphase]
      exact ⟨rfl, fun hawait => absurd (Phase.await.inj hawait).symm hj, nofun⟩
    · obtain rfl := Option.some.inj ((List.getElem?_set_self hlt).symm.trans hact')
      obtain ⟨op, hop, hok⟩ := hth.entry i act hact
      refine ⟨op, hop, hok.index, hok.mode, fun hlocal => ?_, fun hremote => ?_⟩
      · -- the future of a local lock points to the row
        have htuple := (hok.ofLocal hlocal).2.1
        rw [TupleFuture.get, htuple] at hget
        obtain rfl := Option.some.inj hget
        exact nomatch htuple.symm.trans hf
      · obtain ⟨htarget, hfut⟩ := hok.ofRemote hremote
        refine ⟨htarget, ?_⟩
        rcases hfut.get (mode_ne_invalid_of_cold hop) hget with ⟨-, hnot, -⟩ | ⟨res, hres, -⟩
        · exact .of_exception hf rfl hnot
        · rw [hres] at hf
          cases hf
  · intro l hl hw
    exact (ho.held l hl hw).mono rfl rfl (by simp) nofun fun p hp _ _ => hp
  · exact fun p hp hw => absurd hw (ho.no_msg_of_get hphase hact hget p hp)

theorem Coupled.awaitGranted (h : Coupled c store₀ s a) (hphase : (s.threads w).phase = .await i)
    (hact : (s.threads w).log[i]? = some act) (hget : act.future.get = some f)
    (hf : f.tuple ≠ .exception) :
    Coupled c store₀ (s.setThread w
      { s.threads w with
        phase := .acquire (i + 1), log := (s.threads w).log.set i { act with future := f } })
          a := by
  have ho := h.own w
  have hth := ho.thread
  have hlt : i < (s.threads w).log.length := (List.getElem?_eq_some_iff.mp hact).1
  refine h.setThread ?_ ?_ ?_
  · refine hth.step rfl rfl i (fun j hj => List.getElem?_set_ne hj.symm)
      (fun _ _ _ => FrameAt.refl _ _) (fun j hj _ => ?_) (fun act' hact' => ?_) (fun m hm => ?_)
      (fun _ => hth.growing (by rw [hphase]; rfl)) (fun _ => hth.clean (by rw [hphase]; rfl)) nofun
      (fun e he => Or.inl he)
    · rw [hphase]
      exact ⟨rfl, fun hawait => absurd (Phase.await.inj hawait).symm hj, nofun⟩
    · obtain rfl := Option.some.inj ((List.getElem?_set_self hlt).symm.trans hact')
      obtain ⟨op, hop, hok⟩ := hth.entry i act hact
      refine ⟨op, hop, hok.index, hok.mode, fun hlocal => ?_, fun hremote => ?_⟩
      · obtain ⟨htarget, htuple, hheld, -⟩ := hok.ofLocal hlocal
        rw [TupleFuture.get, htuple] at hget
        obtain rfl := Option.some.inj hget
        exact ⟨htarget, htuple, fun _ => hheld (by rw [hphase]; rfl), nofun⟩
      · obtain ⟨htarget, hfut⟩ := hok.ofRemote hremote
        refine ⟨htarget, ?_⟩
        rcases hfut.get (mode_ne_invalid_of_cold hop) hget with
          ⟨hex, -⟩ | ⟨res, hres, hnames, hm, hheld, -⟩
        · exact absurd hex hf
        · rw [hres]
          exact .granted hnames hm (fun _ => hheld (by rw [hphase]; rfl)) nofun
    · rw [List.length_set]
      exact (hth.len (i + 1) (by rw [hphase]; rfl)).trans (Option.some.inj hm)
  · intro l hl hw
    exact (ho.held l hl hw).mono rfl rfl (by simp) nofun fun p hp _ _ => hp
  · exact fun p hp hw => absurd hw (ho.no_msg_of_get hphase hact hget p hp)

/-! ### Accesses -/

/-- In the second loop the lock is held and the future points to the row, or to a copy with the
value of the machine. -/
theorem Own.access_cases (ho : Own c s a w) (hphase : (s.threads w).phase = .access i)
    (hop : (s.threads w).txn.cold[i]? = some op) (hact : (s.threads w).log[i]? = some act)
    (hget : act.future.get = some f) :
    rowLock w (s.threads w) i op ∈ a.held ∧
      (op.locInfo.isLocal = true ∧ f.tuple = .row ∨
        op.locInfo.isLocal = false ∧ ∃ res, f = ⟨some res, .packet, f.lastAcq⟩ ∧
          Names res (rowLock w (s.threads w) i op) ∧ res.mode = op.mode ∧
          res.tuple = a.store op.id) := by
  have hcl : (s.threads w).phase.cleared i = false := by rw [hphase]; rfl
  obtain ⟨op', hop', hok⟩ := ho.thread.entry i act hact
  obtain rfl := Option.some.inj (hop.symm.trans hop')
  cases hlocal : op.locInfo.isLocal with
  | true =>
    obtain ⟨-, htuple, hheld, -⟩ := hok.ofLocal hlocal
    rw [TupleFuture.get, htuple] at hget
    obtain rfl := Option.some.inj hget
    exact ⟨hheld hcl, Or.inl ⟨rfl, htuple⟩⟩
  | false =>
    rcases (hok.ofRemote hlocal).2.get (mode_ne_invalid_of_cold hop) hget with
      ⟨-, -, hph⟩ | ⟨res, hres, hnames, hm, hheld, -⟩
    · rw [hphase] at hph
      rcases hph with hph | hph <;> cases hph
    · exact ⟨(hheld hcl).1, Or.inr ⟨rfl, res, hres, hnames, hm, (hheld hcl).2⟩⟩

/-- So no future is empty there. -/
theorem Own.access_ne_null (ho : Own c s a w) (hphase : (s.threads w).phase = .access i)
    (hop : (s.threads w).txn.cold[i]? = some op) (hact : (s.threads w).log[i]? = some act)
    (hget : act.future.get = some f) : ¬(f.tuple ≠ .row ∧ f.tuple ≠ .packet) := by
  rintro ⟨hrow, hpacket⟩
  obtain ⟨-, ⟨-, hrow'⟩ | ⟨-, res, hres, -⟩⟩ := ho.access_cases hphase hop hact hget
  · exact hrow hrow'
  · exact hpacket (congrArg TupleFuture.tuple hres)

theorem stamp_eq (th : Thread) (f : TupleFuture) :
    stamp th f = ⟨f.pkt, f.tuple, (stamp th f).lastAcq⟩ := by
  unfold stamp
  split_ifs <;> rfl

/-- An access: the machine reads or writes under the lock, and the entry of the operation is in
order again. -/
theorem Coupled.access (h : Coupled c store₀ s a) {i : ℕ} {op : Op} {act : UndoAction}
    {f : TupleFuture} {e : Event Attempt DbKey (BitVec 32)}
    (hphase : (s.threads w).phase = .access i) (hop : (s.threads w).txn.cold[i]? = some op)
    (hact : (s.threads w).log[i]? = some act) (hstep : Step a a') (hheld : a'.held = a.held)
    (hhist : a'.history = a.history ++ [e]) (htxn : e.txn = s.attempt w) (hne : ∀ l, e ≠ .unlock l)
    (hrows : RowsOk c s'.rows a')
    (hs : s' = { s with rows := s'.rows, history := s.history ++ [e] }.setThread w
      (accessed (s.threads w) i act f))
    (hframe : ∀ w', w ≠ w' → Frame a a' w')
    (hframeAt : ∀ j op, j ≠ i → FrameAt a a' (rowLock w (s.threads w) j op))
    (hentry : EntryOk c a' w (accessed (s.threads w) i act f) i op
      { act with future := stamp (s.threads w) f }) : Coupled c store₀ s' a' := by
  have ho := h.own w
  have hth := ho.thread
  have hgrow : (s.threads w).phase.growing = true := by rw [hphase]; rfl
  have hlt : i < (s.threads w).log.length := (List.getElem?_eq_some_iff.mp hact).1
  rw [hs]
  refine h.move w (h.inv.step hstep) (hhist.trans (congrArg (· ++ _) h.history)) hrows
    ⟨h.net.nodup, h.net.futs, h.net.puts⟩ (own_of (Function.update_self _ _ _) ?_ ?_ ?_) hframe
    (fun w' hw => Function.update_of_ne (Ne.symm hw) _ _) (fun _ _ => Iff.rfl) (fun _ _ _ _ => id)
  · refine hth.step rfl rfl i (fun j hj => List.getElem?_set_ne hj.symm) hframeAt
      (fun j _ _ => by rw [hphase]; exact ⟨rfl, nofun, nofun⟩) (fun act' hact' => ⟨op, hop, ?_⟩)
      (fun m hm => ?_) (fun _ => ?_) nofun nofun fun e' he' => ?_
    · obtain rfl := Option.some.inj ((List.getElem?_set_self hlt).symm.trans hact')
      exact hentry
    · exact List.length_set.trans (hth.len m (by rw [hphase]; exact hm))
    · rw [hhist]
      exact not_released_concat (hth.growing hgrow) hne
    · exact mem_or_seq_of_mem_concat (congrArg Attempt.seq htxn) (hhist ▸ he')
  · intro l hl hw
    exact (ho.held l (hheld ▸ hl) hw).mono rfl rfl (by simp [accessed]) nofun fun p hp _ _ => hp
  · exact fun p hp hw => absurd hw (ho.no_msg hgrow (by rw [hphase]; exact nofun) p hp)

/-- The entry after an access in place. -/
theorem EntryOk.stamp_row {th th' : Thread} (hok : EntryOk c a w th i op act)
    (hlocal : op.locInfo.isLocal = true) (hf : f.tuple = .row) (hcl : th'.phase.cleared i = false)
    (hl : rowLock w th' i op ∈ a'.held) :
    EntryOk c a' w th' i op { act with future := stamp th f } := by
  refine ⟨hok.index, hok.mode, fun _ => ⟨(hok.ofLocal hlocal).1, ?_, fun _ => hl, fun h => ?_⟩,
    fun hremote => ?_⟩
  · rw [stamp_eq]
    exact hf
  · exact Bool.noConfusion (hcl.symm.trans h)
  · exact Bool.noConfusion (hremote.symm.trans hlocal)

/-- The entry after an access to a copy. -/
theorem EntryOk.stamp_packet {th th' : Thread} {acq : TxnId} (hok : EntryOk c a w th i op act)
    (hremote : op.locInfo.isLocal = false) (hcl : th'.phase.cleared i = false)
    (hnames : Names res (rowLock w th' i op)) (hm : res.mode = op.mode)
    (hl : rowLock w th' i op ∈ a'.held) (hv : res.tuple = a'.store op.id) :
    EntryOk c a' w th' i op { act with future := stamp th ⟨some res, .packet, acq⟩ } := by
  refine ⟨hok.index, hok.mode, fun hlocal => ?_, fun _ => ⟨(hok.ofRemote hremote).1, ?_⟩⟩
  · exact Bool.noConfusion (hremote.symm.trans hlocal)
  · show FutureOk _ _ _ _ _ (stamp th ⟨some res, .packet, acq⟩)
    rw [stamp_eq]
    exact .granted hnames hm (fun _ => ⟨hl, hv⟩) fun h => Bool.noConfusion (hcl.symm.trans h)

theorem Coupled.writeRow (h : Coupled c store₀ s a) (hphase : (s.threads w).phase = .access i)
    (hop : (s.threads w).txn.cold[i]? = some op) (hact : (s.threads w).log[i]? = some act)
    (hget : act.future.get = some f) (hf : f.tuple = .row) (hmode : op.mode = .write) :
    ∃ a', Step a a' ∧ Coupled c store₀
      (((s.setRow w.nid op.id { s.rows (w.nid, op.id) with tuple := op.value }).setThread w
        (accessed (s.threads w) i act f)).record
          (.write (rowLock w (s.threads w) i op) op.value)) a' := by
  have ho := h.own w
  obtain ⟨op', hop', hok⟩ := ho.thread.entry i act hact
  obtain rfl := Option.some.inj (hop.symm.trans hop')
  obtain ⟨hl, ⟨hlocal, -⟩ | ⟨-, res, hres, -⟩⟩ := ho.access_cases hphase hop hact hget
  · have howner : c.owner op.id = w.nid := (ho.thread.isLocal_iff hop).mp hlocal
    have hex : (rowLock w (s.threads w) i op).excl = true := decide_eq_true hmode
    have hrows : RowsOk c (Function.update s.rows (w.nid, op.id)
        { s.rows (w.nid, op.id) with tuple := op.value })
        (a.write (rowLock w (s.threads w) i op) op.value) := by
      rw [← howner]
      exact h.rows.write (rowLock w (s.threads w) i op)
    have hstep : Step a (a.write (rowLock w (s.threads w) i op) op.value) :=
      .write (ho.thread.growing (by rw [hphase]; rfl)) hl hex
    exact ⟨_, hstep, h.access hphase hop hact hstep rfl rfl rfl nofun
      hrows rfl (fun w' hw => frame_write h.inv hl hex hw)
      (fun j op' hj => frameAt_write h.inv hl hex (rowLock_ne hj _ _))
      (hok.stamp_row hlocal hf rfl hl)⟩
  · rw [hres] at hf
    cases hf

theorem Coupled.readRow (h : Coupled c store₀ s a) (hphase : (s.threads w).phase = .access i)
    (hop : (s.threads w).txn.cold[i]? = some op) (hact : (s.threads w).log[i]? = some act)
    (hget : act.future.get = some f) (hf : f.tuple = .row) (hmode : op.mode ≠ .write) :
    ∃ a', Step a a' ∧ Coupled c store₀ ((s.setThread w (accessed (s.threads w) i act f)).record
      (.read (rowLock w (s.threads w) i op) (s.rows (w.nid, op.id)).tuple)) a' := by
  have ho := h.own w
  obtain ⟨op', hop', hok⟩ := ho.thread.entry i act hact
  obtain rfl := Option.some.inj (hop.symm.trans hop')
  obtain ⟨hl, ⟨hlocal, -⟩ | ⟨-, res, hres, -⟩⟩ := ho.access_cases hphase hop hact hget
  · have howner : c.owner op.id = w.nid := (ho.thread.isLocal_iff hop).mp hlocal
    have hex : (rowLock w (s.threads w) i op).excl = false := decide_eq_false hmode
    -- nobody writes what this thread has locked for reading
    have hv : (s.rows (w.nid, op.id)).tuple = a.store op.id := by
      rw [← howner]
      refine h.rows.tuple_eq fun l hl' hitem => ?_
      by_cases heq : l = rowLock w (s.threads w) i op
      · exact heq ▸ hex
      · exact (h.inv.compat l hl' _ hl heq hitem).1
    have hstep : Step a (a.read (rowLock w (s.threads w) i op) _) :=
      .read (ho.thread.growing (by rw [hphase]; rfl)) hl hex hv
    exact ⟨_, hstep, h.access hphase hop hact hstep rfl rfl rfl nofun
      ⟨h.rows.lock, h.rows.value⟩ rfl (fun w' hw => frame_read hw)
      (fun j op' _ => frameAt_read _ _ _)
      (hok.stamp_row hlocal hf rfl hl)⟩
  · rw [hres] at hf
    cases hf

theorem Coupled.writePacket (h : Coupled c store₀ s a) (hphase : (s.threads w).phase = .access i)
    (hop : (s.threads w).txn.cold[i]? = some op) (hact : (s.threads w).log[i]? = some act)
    (hget : act.future.get = some f) (hf : f.tuple = .packet) (hpkt : f.pkt = some res)
    (hmode : op.mode = .write) :
    ∃ a', Step a a' ∧ Coupled c store₀ ((s.setThread w (accessed (s.threads w) i act
      { f with pkt := some { res with tuple := op.value } })).record
      (.write (rowLock w (s.threads w) i op) op.value)) a' := by
  have ho := h.own w
  obtain ⟨op', hop', hok⟩ := ho.thread.entry i act hact
  obtain rfl := Option.some.inj (hop.symm.trans hop')
  obtain ⟨hl, ⟨-, hrow⟩ | ⟨hremote, res', hres, hnames, hm, -⟩⟩ :=
    ho.access_cases hphase hop hact hget
  · exact nomatch hf.symm.trans hrow
  · rw [hres] at hpkt
    obtain rfl := Option.some.inj hpkt
    have hex : (rowLock w (s.threads w) i op).excl = true := decide_eq_true hmode
    have hown : w.nid ≠ c.owner op.id := fun heq =>
      Bool.noConfusion (hremote.symm.trans ((ho.thread.isLocal_iff hop).mpr heq.symm))
    have hstore := a.store_write_self (rowLock w (s.threads w) i op) op.value
    rw [hres]
    have hstep : Step a (a.write (rowLock w (s.threads w) i op) op.value) :=
      .write (ho.thread.growing (by rw [hphase]; rfl)) hl hex
    exact ⟨_, hstep, h.access hphase hop hact hstep rfl rfl rfl nofun
      (h.rows.writeCopy hl hex hown) rfl (fun w' hw => frame_write h.inv hl hex hw)
      (fun j op' hj => frameAt_write h.inv hl hex (rowLock_ne hj _ _))
      (hok.stamp_packet hremote rfl ⟨hnames.att, hnames.op, hnames.rid⟩ hm hl hstore.symm)⟩

theorem Coupled.readPacket (h : Coupled c store₀ s a) (hphase : (s.threads w).phase = .access i)
    (hop : (s.threads w).txn.cold[i]? = some op) (hact : (s.threads w).log[i]? = some act)
    (hget : act.future.get = some f) (hf : f.tuple = .packet) (hpkt : f.pkt = some res)
    (hmode : op.mode ≠ .write) :
    ∃ a', Step a a' ∧ Coupled c store₀ ((s.setThread w (accessed (s.threads w) i act f)).record
      (.read (rowLock w (s.threads w) i op) res.tuple)) a' := by
  have ho := h.own w
  obtain ⟨op', hop', hok⟩ := ho.thread.entry i act hact
  obtain rfl := Option.some.inj (hop.symm.trans hop')
  obtain ⟨hl, ⟨-, hrow⟩ | ⟨hremote, res', hres, hnames, hm, hv⟩⟩ :=
    ho.access_cases hphase hop hact hget
  · exact nomatch hf.symm.trans hrow
  · rw [hres] at hpkt
    obtain rfl := Option.some.inj hpkt
    have hex : (rowLock w (s.threads w) i op).excl = false := decide_eq_false hmode
    rw [hres]
    have hstep : Step a (a.read (rowLock w (s.threads w) i op) _) :=
      .read (ho.thread.growing (by rw [hphase]; rfl)) hl hex hv
    exact ⟨_, hstep, h.access hphase hop hact hstep rfl rfl rfl nofun
      ⟨h.rows.lock, h.rows.value⟩ rfl (fun w' hw => frame_read hw)
      (fun j op' _ => frameAt_read _ _ _)
      (hok.stamp_packet hremote rfl hnames hm hl hv)⟩

/-! ### Releases -/

theorem clear_frame (hi : i ≠ j) : Phase.Frame (.clear rc j) (.clear rc (j + 1)) i := by
  refine ⟨?_, nofun, fun hr => ?_⟩
  · show decide (i < j + 1) = decide (i < j)
    exact decide_eq_decide.mpr (by omega)
  · cases rc
    · cases hr
    · rfl

/-- What a thread that releases entry `j` knows about the entry, its lock and its messages. -/
theorem Own.clear_cases (ho : Own c s a w) (hphase : (s.threads w).phase = .clear rc j)
    (hact : (s.threads w).log[j]? = some act) :
    ∃ op, (s.threads w).txn.cold[j]? = some op ∧ EntryOk c a w (s.threads w) j op act ∧
      (∀ l ∈ a.held, l.txn.worker = w → l.op = j → l = rowLock w (s.threads w) j op) ∧
      (∀ p ∈ s.net, p.msg.att.worker = w → p.msg.type.isPut = true ∧ p.msg.op ≠ j) := by
  obtain ⟨op, hop, hok⟩ := ho.thread.entry j act hact
  refine ⟨op, hop, hok, fun l hl hw hj => ?_, fun p hp hw => ?_⟩
  · obtain ⟨op', hop', heq⟩ := (ho.held l hl hw).op_eq
    subst hj
    obtain rfl := Option.some.inj (hop.symm.trans hop')
    exact heq
  · obtain ⟨op', act', hmsg⟩ := ho.msg p hp hw
    cases hput : p.msg.type.isPut with
    | false => exact nomatch hphase.symm.trans (hmsg.waiting hput).1
    | true =>
      refine ⟨rfl, fun hj => ?_⟩
      have hcl := (hmsg.releasing hput).1
      rw [hphase, hj] at hcl
      exact Nat.lt_irrefl j (of_decide_eq_true hcl)

/-- Only locks on rows of other nodes have a target. -/
theorem EntryOk.isLocal_of_target {th : Thread} (hok : EntryOk c a w th i op act)
    (htarget : act.target = none) : op.locInfo.isLocal = true := by
  by_contra hne
  exact nomatch htarget.symm.trans (hok.ofRemote (Bool.not_eq_true _ ▸ hne)).1

theorem EntryOk.isRemote_of_target {th : Thread} {target : ℕ} (hok : EntryOk c a w th i op act)
    (htarget : act.target = some target) : op.locInfo.isLocal = false := by
  by_contra hne
  exact nomatch htarget.symm.trans (hok.ofLocal ((Bool.not_eq_false _).mp hne)).1

/-- The thread moves on to the next entry, and the one it leaves is in order. -/
theorem ThreadOk.clear {th : Thread} {rc : RC} {j : ℕ} {act : UndoAction} {op : Op}
    (hth : ThreadOk c a w th) (hphase : th.phase = .clear rc j) (hact : th.log[j]? = some act)
    (hop : th.txn.cold[j]? = some op)
    (hframe : ∀ i op, i ≠ j → FrameAt a a' (rowLock w th i op))
    (hentry : EntryOk c a' w { th with phase := .clear rc (j + 1) } j op act)
    (hclean : ¬Wrote a.history ⟨w, th.seq⟩ → ¬Wrote a'.history ⟨w, th.seq⟩)
    (hcom : Committed a.history ⟨w, th.seq⟩ → Committed a'.history ⟨w, th.seq⟩)
    (hfresh : ∀ e ∈ a'.history, e ∈ a.history ∨ e.txn.seq = th.seq) :
    ThreadOk c a' w { th with phase := .clear rc (j + 1) } := by
  refine hth.step rfl rfl j (fun _ _ => rfl) hframe
    (fun i hi _ => by rw [hphase]; exact clear_frame hi) (fun act' hact' => ⟨op, hop, ?_⟩)
    (fun m hm => hth.len m ?_) nofun (fun hc => hclean (hth.clean ?_))
    (fun hc => hcom (hth.committed ?_)) hfresh
  · obtain rfl := Option.some.inj (hact.symm.trans hact')
    exact hentry
  · rw [hphase]
    cases rc
    · exact hm
    · cases hm
  · rw [hphase]
    cases rc
    · cases hc
    · rfl
  · rw [hphase]
    cases rc
    · rfl
    · cases hc

theorem cleared_succ (h : (Phase.clear rc j).cleared i = true) :
    (Phase.clear rc (j + 1)).cleared i = true :=
  decide_eq_true (Nat.lt_succ_of_lt (of_decide_eq_true h))

theorem cleared_of_succ (hi : i ≠ j) (h : (Phase.clear rc (j + 1)).cleared i = true) :
    (Phase.clear rc j).cleared i = true :=
  (clear_frame hi).cleared ▸ h

theorem Coupled.clearLocal (h : Coupled c store₀ s a) {row : Row}
    (hphase : (s.threads w).phase = .clear rc j) (hact : (s.threads w).log[j]? = some act)
    (htarget : act.target = none)
    (hput : (s.rows (w.nid, act.index)).localUnlock act.mode act.future.lastAcq = (.success, row)) :
    ∃ a', Step a a' ∧ Coupled c store₀
      (((s.setRow w.nid act.index row).setPhase w (.clear rc (j + 1))).record
      (.unlock ⟨s.attempt w, j, act.index, decide (act.mode = .write)⟩)) a' := by
  have ho := h.own w
  have hth := ho.thread
  obtain ⟨op, hop, hok, hlock, hmsgs⟩ := ho.clear_cases hphase hact
  have hlocal : op.locInfo.isLocal = true := hok.isLocal_of_target htarget
  have howner : c.owner op.id = w.nid := (hth.isLocal_iff hop).mp hlocal
  have hl : rowLock w (s.threads w) j op ∈ a.held :=
    (hok.ofLocal hlocal).2.2.1 (by rw [hphase]; exact decide_eq_false (Nat.lt_irrefl j))
  rw [hok.index, hok.mode] at hput ⊢
  obtain ⟨order, hstep⟩ := exists_unlock hl (hth.may_release (by
    rw [hphase]; cases rc <;> first | exact Or.inl rfl | exact Or.inr rfl))
  have hrows : RowsOk c (Function.update s.rows (w.nid, op.id) row)
      (a.unlock (rowLock w (s.threads w) j op) order) := by
    rw [← howner, ← @lockMode_rowLock w (s.threads w) j op (mode_ne_invalid_of_cold hop)] at hput
    have hrow := congrArg Prod.snd hput
    subst hrow
    rw [← howner]
    exact h.rows.unlock (rowLock w (s.threads w) j op) hl order act.future.lastAcq _
      (Or.inr ⟨rfl, fun _ => howner.symm⟩)
  refine ⟨_, hstep, h.move w (h.inv.step hstep) (congrArg (· ++ _) h.history) hrows
    ⟨h.net.nodup, h.net.futs, h.net.puts⟩ (own_of (Function.update_self _ _ _) ?_ ?_ ?_)
    (fun w' hw => frame_unlock hw) (fun w' hw => Function.update_of_ne (Ne.symm hw) _ _)
    (fun _ _ => Iff.rfl) (fun _ _ _ _ => id)⟩
  · refine hth.clear hphase hact hop (fun i op' hi => frameAt_unlock (rowLock_ne hi _ _)) ?_
      (fun hw => not_wrote_concat hw nofun) (List.mem_append_left _)
      (fun e he => mem_or_seq_of_mem_concat rfl he)
    refine ⟨hok.index, hok.mode,
      fun _ => ⟨htarget, (hok.ofLocal hlocal).2.1, fun hcl => ?_, fun _ => ?_⟩,
      fun hremote => Bool.noConfusion (hremote.symm.trans hlocal)⟩
    · exact absurd (Nat.lt_succ_self j) (of_decide_eq_false hcl)
    · exact released_concat.mpr (Or.inr ⟨_, rfl, rfl⟩)
  · intro l hl' hw
    have hmem : l ∈ a.held := List.mem_of_mem_erase hl'
    have hj : l.op ≠ j := fun hj => by
      obtain rfl := hlock l hmem hw hj
      exact h.inv.nodup.not_mem_erase hl'
    refine (ho.held l hmem hw).mono rfl rfl (Nat.le_refl _) (fun hcl => ?_) fun p hp _ _ => hp
    rw [hphase]
    exact cleared_of_succ hj hcl
  · intro p hp hw
    obtain ⟨op', act', hmsg⟩ := ho.msg p hp hw
    obtain ⟨-, hj⟩ := hmsgs p hp hw
    refine ⟨op', act', hmsg.transfer (frameAt_unlock (rowLock_ne hj _ _)) rfl rfl hmsg.act_eq
      (fun hawait => nomatch hphase.symm.trans hawait) (fun hcl => ?_) id⟩
    rw [hphase] at hcl
    exact cleared_succ hcl

theorem Coupled.clearSkip (h : Coupled c store₀ s a) {target : ℕ}
    (hphase : (s.threads w).phase = .clear rc j) (hact : (s.threads w).log[j]? = some act)
    (htarget : act.target = some target) (hget : act.future.get = some f)
    (hf : f.tuple = .exception) : Coupled c store₀ (s.setPhase w (.clear rc (j + 1))) a := by
  have ho := h.own w
  have hth := ho.thread
  obtain ⟨op, hop, hok, hlock, hmsgs⟩ := ho.clear_cases hphase hact
  have hremote : op.locInfo.isLocal = false := hok.isRemote_of_target htarget
  obtain ⟨htarget', hfut⟩ := hok.ofRemote hremote
  -- a refused request has left the marker in the future
  obtain ⟨hex, hnot, hroll⟩ : act.future.tuple = .exception ∧
    rowLock w (s.threads w) j op ∉ a.held ∧
      (s.threads w).phase.rolledBack = true := by
    rcases hfut.get (mode_ne_invalid_of_cold hop)
      hget with ⟨-, hnot, hroll | hawait⟩ | ⟨res, hres, -⟩
    · refine ⟨?_, hnot, hroll⟩
      generalize act.future = g at hfut hget
      cases hfut with
      | waiting => cases hget
      | answered hawait => exact nomatch hphase.symm.trans hawait
      | refused => rfl
      | granted => exact hf ▸ Option.some.inj hget ▸ rfl
    · exact nomatch hphase.symm.trans hawait
    · rw [hres] at hf
      cases hf
  refine h.setThread (hth.clear hphase hact hop (fun _ _ _ => FrameAt.refl _ _)
    ⟨hok.index, hok.mode, fun hlocal => ?_, fun _ => ⟨htarget', ?_⟩⟩ id id fun e he => Or.inl he)
    (fun l hl hw => ?_) fun p hp hw => ?_
  · exact Bool.noConfusion (hremote.symm.trans hlocal)
  · refine .of_exception hex ?_ hnot
    rw [hphase] at hroll
    cases rc
    · cases hroll
    · rfl
  · have hj : l.op ≠ j := fun hj => hnot (hlock l hl hw hj ▸ hl)
    refine (ho.held l hl hw).mono rfl rfl (Nat.le_refl _) (fun hcl => ?_) fun p hp _ _ => hp
    rw [hphase]
    exact cleared_of_succ hj hcl
  · obtain ⟨op', act', hmsg⟩ := ho.msg p hp hw
    refine ⟨op', act', hmsg.transfer (FrameAt.refl _ _) rfl rfl hmsg.act_eq
      (fun hawait => nomatch hphase.symm.trans hawait) (fun hcl => ?_) id⟩
    rw [hphase] at hcl
    exact cleared_succ hcl

theorem Coupled.clearRemote (h : Coupled c store₀ s a) {target : ℕ}
    (hphase : (s.threads w).phase = .clear rc j) (hact : (s.threads w).log[j]? = some act)
    (htarget : act.target = some target) (hget : act.future.get = some f)
    (hf : f.tuple ≠ .exception) (hpkt : f.pkt = some res) :
    Coupled c store₀ (({ s with
      putResponses := Function.update s.putResponses w (s.putResponses w + 1) }.setPhase w
      (.clear rc (j + 1))).send target
      { res with type := .tuplePutReq, sender := w, pack := f.lastAcq.getPacked }) a := by
  have ho := h.own w
  have hth := ho.thread
  obtain ⟨op, hop, hok, hlock, hmsgs⟩ := ho.clear_cases hphase hact
  have hcl : (s.threads w).phase.cleared j = false := by
    rw [hphase]
    exact decide_eq_false (Nat.lt_irrefl j)
  have hremote : op.locInfo.isLocal = false := hok.isRemote_of_target htarget
  obtain ⟨htarget', hfut⟩ := hok.ofRemote hremote
  obtain rfl := Option.some.inj (htarget.symm.trans htarget')
  -- the future has the copy
  obtain ⟨hfut', hnames, hm, hl, hv⟩ : FutureOk a (rowLock w (s.threads w) j op) op.mode
      (.clear rc (j + 1)) j act.future ∧ Names res (rowLock w (s.threads w) j op) ∧
      res.mode = op.mode ∧ rowLock w (s.threads w) j op ∈ a.held ∧ res.tuple = a.store op.id := by
    generalize act.future = g at hfut hget
    cases hfut with
    | waiting => cases hget
    | answered hawait => exact nomatch hphase.symm.trans hawait
    | refused =>
      obtain rfl := Option.some.inj hget
      exact absurd rfl hf
    | granted hnames hm hheld hdone =>
      obtain rfl := Option.some.inj hget
      obtain rfl := Option.some.inj hpkt
      exact ⟨.granted hnames hm (fun _ => hheld hcl) fun _ => Or.inl (hheld hcl).1, hnames, hm,
        hheld hcl⟩
  refine h.move w h.inv h.history h.rows ⟨?_, h.net.futs, ?_⟩
    (own_of (Function.update_self _ _ _) ?_ ?_ ?_) (fun w' _ => Frame.refl a w')
    (fun w' hw => Function.update_of_ne (Ne.symm hw) _ _) ?_
    (fun _ _ _ _ => id)
  · -- the thread has no message about the entry `j` yet
    refine List.nodup_cons.mpr ⟨fun hmem => ?_, h.net.nodup⟩
    obtain ⟨p, hp, htoken⟩ := List.mem_map.mp hmem
    obtain ⟨hatt, hop'⟩ := Prod.mk.inj htoken
    exact (hmsgs p hp (by rw [hatt, hnames.att]; rfl)).2 (hop'.trans hnames.op)
  · exact puts_cons h.net.puts rfl (congrArg Attempt.worker hnames.att)
  · refine hth.clear hphase hact hop (fun _ _ _ => FrameAt.refl _ _)
      ⟨hok.index, hok.mode, fun hlocal => ?_, fun _ => ⟨htarget', hfut'⟩⟩ id id
      fun e he => Or.inl he
    exact Bool.noConfusion (hremote.symm.trans hlocal)
  · -- the lock of this entry stays held until the request on the way arrives
    intro l hl' hw
    have hold := ho.held l hl' hw
    by_cases hj : l.op = j
    · obtain rfl := hlock l hl' hw hj
      exact ⟨⟨op, hop, rfl⟩, hold.logged,
        fun _ => ⟨_, List.mem_cons_self, rfl, hnames.att, hnames.op⟩⟩
    · refine hold.mono rfl rfl (Nat.le_refl _) (fun hcl' => ?_) fun p hp _ _ =>
        List.mem_cons_of_mem _ hp
      rw [hphase]
      exact cleared_of_succ hj hcl'
  · intro p hp hw
    rcases List.mem_cons.mp hp with rfl | hp
    · have hj : res.op = j := hnames.op
      refine ⟨op, act, hnames.att, hj ▸ hop, hj ▸ hact, hremote, hnames.rid, rfl, nofun,
        fun _ => ⟨?_, rfl⟩, nofun, nofun, fun _ => ⟨rfl, hm, ?_, hv⟩, nofun⟩
      · exact decide_eq_true (hj ▸ Nat.lt_succ_self j)
      · show rowLock w (s.threads w) res.op op ∈ a.held
        rw [hj]
        exact hl
    · obtain ⟨op', act', hmsg⟩ := ho.msg p hp hw
      refine ⟨op', act', hmsg.transfer (FrameAt.refl _ _) rfl rfl hmsg.act_eq
        (fun hawait => nomatch hphase.symm.trans hawait) (fun hcl' => ?_) id⟩
      rw [hphase] at hcl'
      exact cleared_succ hcl'
  · intro p hw
    refine List.mem_cons.trans (or_iff_right ?_)
    rintro rfl
    exact hw (congrArg Attempt.worker hnames.att).symm

end P4db.System
