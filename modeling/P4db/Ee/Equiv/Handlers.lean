import P4db.Ee.Equiv.Moves

/-!
# Handlers keep the coupling

A handler acts for the thread whose message it handles.  `Coupled.reply` is the common part of the
handlers that answer.  `Coupled.of_move` collects all moves, of threads and of handlers.
-/

namespace P4db.System

open TwoPhase

variable {c : Config} {s s' : System} {a a' : Ledger} {w : NodeT} {store₀ : DbKey → BitVec 32}
  {p : Packet}

/-- The lock a message asks for or gives back is the one of its operation. -/
theorem MsgAt.rowLock_eq {futs : ℕ × ℕ → Option (ℕ × ℕ)} {th : Thread} {op : Op} {act : UndoAction}
    (hmsg : MsgAt c a futs w th p op act) (hmode : p.msg.mode = op.mode) :
    p.msg.rowLock = rowLock w th p.msg.op op := by
  rw [TupleMsg.rowLock, rowLock, hmsg.rid, hmode, hmsg.seq]

/-- The entry of the log that a message is about keeps its place; only its future matters. -/
theorem MsgAt.entryOk {futs : ℕ × ℕ → Option (ℕ × ℕ)} {th th' : Thread} {op : Op} {act : UndoAction}
    {future : TupleFuture} (hmsg : MsgAt c a futs w th p op act) (hth : ThreadOk c a w th)
    (hfut : FutureOk a (rowLock w th p.msg.op op) op.mode th.phase p.msg.op act.future →
      FutureOk a' (rowLock w th' p.msg.op op) op.mode th'.phase p.msg.op future) :
    EntryOk c a' w th' p.msg.op op { act with future := future } := by
  obtain ⟨op', hop', hok⟩ := hth.entry _ _ hmsg.act_eq
  obtain rfl := Option.some.inj (hmsg.op_eq.symm.trans hop')
  refine ⟨hok.index, hok.mode, fun hlocal => ?_, fun hremote => ?_⟩
  · exact Bool.noConfusion (hmsg.remote.symm.trans hlocal)
  · obtain ⟨htarget, hfuture⟩ := hok.ofRemote hremote
    exact ⟨htarget, hfut hfuture⟩

/-- The other messages of a thread are about other operations. -/
theorem Coupled.op_ne_of_mem_erase (h : Coupled c store₀ s a) (hp : p ∈ s.net) {p' : Packet}
    (hp' : p' ∈ s.net.erase p) (hw : p'.msg.att.worker = p.msg.att.worker) :
    p'.msg.op ≠ p.msg.op := by
  intro hop
  obtain ⟨_, _, hmsg⟩ := (h.own p.msg.att.worker).msg p hp rfl
  obtain ⟨_, _, hmsg'⟩ := (h.own p.msg.att.worker).msg p' (List.mem_of_mem_erase hp') hw
  refine h.net.token_not_mem_erase hp (List.mem_map.mpr ⟨p', hp', ?_⟩)
  rw [token, token, hmsg'.seq.trans hmsg.seq.symm, hop]

/-- A handler answers the message `p` with `m`. -/
theorem Coupled.reply (h : Coupled c store₀ s a) (hp : p ∈ s.net) {dst : ℕ} {m : TupleMsg}
    {rows : ℕ × DbKey → Row} {history : List (Event Attempt DbKey (BitVec 32))}
    (hatt : m.att = p.msg.att) (hop : m.op = p.msg.op) (htype : m.type.isPut = p.msg.type.isPut)
    (hinv : TwoPhase.Inv store₀ a') (hhist : a'.history = history) (hrows : RowsOk c rows a')
    (hframe : ∀ w', p.msg.att.worker ≠ w' → Frame a a' w')
    (hframeAt : ∀ j op, j ≠ p.msg.op →
      FrameAt a a' (rowLock p.msg.att.worker (s.threads p.msg.att.worker) j op))
    (hthread : ThreadOk c a' p.msg.att.worker (s.threads p.msg.att.worker))
    (hheld : ∀ l ∈ a'.held, l.txn.worker = p.msg.att.worker →
      HeldOk (⟨dst, m⟩ :: s.net.erase p) p.msg.att.worker (s.threads p.msg.att.worker) l)
    (hmsg : ∃ op act, MsgAt c a' s.openFutures p.msg.att.worker (s.threads p.msg.att.worker)
      ⟨dst, m⟩ op act) :
    Coupled c store₀
      { s with net := ⟨dst, m⟩ :: s.net.erase p, rows := rows, history := history } a' := by
  have ho := h.own p.msg.att.worker
  have hnet : NetOk ({ s with net := s.net.erase p }.send dst m) := h.net.reply hp hatt hop htype
  refine h.move p.msg.att.worker hinv hhist hrows ⟨hnet.nodup, hnet.futs, hnet.puts⟩
    ⟨hthread, hheld, fun p' hp' hw => ?_⟩ hframe (fun _ _ => rfl) (fun p' hw => ?_)
    (fun _ _ _ _ => id)
  · rcases List.mem_cons.mp hp' with rfl | hp'
    · exact hmsg
    · obtain ⟨op, act, hmsg'⟩ := ho.msg p' (List.mem_of_mem_erase hp') hw
      exact ⟨op, act, hmsg'.transfer (hframeAt _ op (h.op_ne_of_mem_erase hp hp' hw)) rfl rfl
        hmsg'.act_eq id id id⟩
  · have hne : p' ≠ p := fun heq => hw (heq ▸ rfl)
    refine List.mem_cons.trans ((or_iff_right ?_).trans (List.mem_erase_of_ne hne))
    rintro rfl
    exact hw (congrArg Attempt.worker hatt).symm

theorem Coupled.getReqRefused (h : Coupled c store₀ s a) (hp : p ∈ s.net)
    (htype : p.msg.type = .tupleGetReq) :
    Coupled c store₀ ({ s with net := s.net.erase p }.send p.msg.sender.nid
      { p.msg with type := .tupleGetRes, mode := .invalid }) a := by
  have ho := h.own p.msg.att.worker
  obtain ⟨op, act, hmsg⟩ := ho.msg p hp rfl
  obtain ⟨-, -, hnot⟩ := hmsg.getReq htype
  have hwait := hmsg.waiting (by rw [htype]; rfl)
  refine h.reply hp rfl rfl (by rw [htype]; rfl) h.inv h.history h.rows
    (fun w' _ => Frame.refl a w') (fun _ _ _ => FrameAt.refl _ _) ho.thread (fun l hl hw => ?_)
    ⟨op, act, hmsg.seq, hmsg.op_eq, hmsg.act_eq, hmsg.remote, hmsg.rid, hmsg.sender, fun _ => hwait,
      nofun, nofun, fun _ => ⟨hmsg.sender, Or.inl ⟨rfl, hnot⟩⟩, nofun, nofun⟩
  refine (ho.held l hl hw).mono rfl rfl (Nat.le_refl _) id fun p' hp' htype' _ => ?_
  have hne : p' ≠ p := by
    rintro rfl
    exact nomatch htype.symm.trans htype'
  exact List.mem_cons_of_mem _ ((List.mem_erase_of_ne hne).mpr hp')

theorem Coupled.getReqGranted (h : Coupled c store₀ s a) {row : Row} (hp : p ∈ s.net)
    (htype : p.msg.type = .tupleGetReq)
    (hacq : (s.rows (p.dst, p.msg.rid)).acquire p.msg.mode (TxnId.ofPacked p.msg.pack) =
      some (some row)) :
    ∃ a', Step a a' ∧ Coupled c store₀
      ((({ s with net := s.net.erase p }.setRow p.dst p.msg.rid row).send
      p.msg.sender.nid
      { p.msg with
        type := .tupleGetRes
        pack := (s.rows (p.dst, p.msg.rid)).lastAcq.getPacked
        tuple := (s.rows (p.dst, p.msg.rid)).tuple }).record (.lock p.msg.rowLock)) a' := by
  have ho := h.own p.msg.att.worker
  have hth := ho.thread
  obtain ⟨op, act, hmsg⟩ := ho.msg p hp rfl
  obtain ⟨hdst, hmode, hnot⟩ := hmsg.getReq htype
  obtain ⟨hphase, hpkt, htuple, hfut⟩ := hmsg.waiting (by rw [htype]; rfl)
  have hvalid := mode_ne_invalid_of_cold hmsg.op_eq
  have hlock := hmsg.rowLock_eq hmode
  rw [hlock]
  rw [hdst, hmsg.rid, hmode,
    ← @lockMode_rowLock p.msg.att.worker (s.threads p.msg.att.worker) p.msg.op op hvalid] at hacq
  have hcompat := h.rows.compatible
    (rowLock p.msg.att.worker (s.threads p.msg.att.worker) p.msg.op op) hacq
  have hgrow := hth.growing (by rw [hphase]; rfl)
  have hstep : Step a (a.lock
      (rowLock p.msg.att.worker (s.threads p.msg.att.worker) p.msg.op op)) :=
    .lock hgrow hnot hcompat
  -- the copy has the value of the machine, because nobody holds the write lock
  have hv : (s.rows (p.dst, p.msg.rid)).tuple = a.store op.id := by
    rw [hdst, hmsg.rid]
    exact h.rows.tuple_eq fun l hl hitem => (hcompat l hl hitem.symm).2
  have hrows : RowsOk c (Function.update s.rows (p.dst, p.msg.rid) row)
      (a.lock (rowLock p.msg.att.worker (s.threads p.msg.att.worker) p.msg.op op)) := by
    rw [hdst, hmsg.rid]
    exact h.rows.grant (rowLock p.msg.att.worker (s.threads p.msg.att.worker) p.msg.op op) hacq
  refine ⟨_, hstep, h.reply hp rfl rfl (by rw [htype]; rfl) (h.inv.step hstep)
    (congrArg (· ++ _) h.history) hrows (fun w' hw => frame_lock hw)
    (fun j op' hj => frameAt_lock (rowLock_ne hj _ _)) ?_ (fun l hl hw => ?_)
    ⟨op, act, hmsg.seq, hmsg.op_eq, hmsg.act_eq, hmsg.remote, hmsg.rid, hmsg.sender,
      fun _ => ⟨hphase, hpkt, htuple, hfut⟩, nofun, nofun,
      fun _ => ⟨hmsg.sender, Or.inr ⟨hmode, List.mem_cons_self, hv⟩⟩, nofun, nofun⟩⟩
  · refine hth.step rfl rfl p.msg.op (fun _ _ => rfl)
      (fun j op' hj => frameAt_lock (rowLock_ne hj _ _)) (fun _ _ _ => Phase.Frame.refl _ _)
      (fun act' hact' => ⟨op, hmsg.op_eq, ?_⟩) hth.len (fun _ => not_released_concat hgrow nofun)
      (fun hc => not_wrote_concat (hth.clean hc) nofun)
      (fun hc => List.mem_append_left _ (hth.committed hc)) fun e he =>
      mem_or_seq_of_mem_concat rfl he
    obtain rfl := Option.some.inj (hmsg.act_eq.symm.trans hact')
    refine hmsg.entryOk hth fun _ => ?_
    -- the response has not arrived yet
    generalize act.future = g at hpkt htuple
    obtain ⟨pkt, tuple, acq⟩ := g
    obtain rfl : pkt = none := hpkt
    obtain rfl : tuple = .null := htuple
    exact .waiting hphase
  · rcases List.mem_cons.mp hl with rfl | hl
    · refine ⟨⟨op, hmsg.op_eq, rfl⟩, (List.getElem?_eq_some_iff.mp hmsg.act_eq).1, fun hcl => ?_⟩
      rw [hphase] at hcl
      cases hcl
    · refine (ho.held l hl hw).mono rfl rfl (Nat.le_refl _) id fun p' hp' htype' _ => ?_
      have hne : p' ≠ p := by
        rintro rfl
        exact nomatch htype.symm.trans htype'
      exact List.mem_cons_of_mem _ ((List.mem_erase_of_ne hne).mpr hp')

theorem Coupled.putReq (h : Coupled c store₀ s a) (hp : p ∈ s.net)
    (htype : p.msg.type = .tuplePutReq) :
    ∃ a', Step a a' ∧ Coupled c store₀ ((({ s with net := s.net.erase p }.setRow p.dst p.msg.rid
      ((s.rows (p.dst, p.msg.rid)).remoteUnlock p.msg.mode p.msg.tuple p.msg.pack)).send
      p.msg.sender.nid { p.msg with type := .tuplePutRes }).record (.unlock p.msg.rowLock)) a' := by
  have ho := h.own p.msg.att.worker
  have hth := ho.thread
  obtain ⟨op, act, hmsg⟩ := ho.msg p hp rfl
  obtain ⟨hdst, hmode, hl, hv⟩ := hmsg.putReq htype
  obtain ⟨hcl, hsender⟩ := hmsg.releasing (by rw [htype]; rfl)
  have hvalid := mode_ne_invalid_of_cold hmsg.op_eq
  have hlock := hmsg.rowLock_eq hmode
  rw [hlock]
  obtain ⟨order, hstep⟩ := exists_unlock hl
    (hth.may_release ((Phase.rolledBack_or_committed hcl).imp_left Phase.clean_of_rolledBack))
  have hrows : RowsOk c (Function.update s.rows (p.dst, p.msg.rid)
      ((s.rows (p.dst, p.msg.rid)).remoteUnlock p.msg.mode p.msg.tuple p.msg.pack))
      (a.unlock (rowLock p.msg.att.worker (s.threads p.msg.att.worker) p.msg.op op) order) := by
    rw [hdst, hmsg.rid, hmode, Row.remoteUnlock]
    have hrow := h.rows.unlock
      (rowLock p.msg.att.worker (s.threads p.msg.att.worker) p.msg.op op) hl order
      (TxnId.ofPacked p.msg.pack)
    rw [lockMode_rowLock hvalid] at hrow
    split_ifs with hw
    · exact hrow p.msg.tuple (Or.inl hv)
    · refine hrow _ (Or.inr ⟨rfl, fun hex => ?_⟩)
      exact absurd (of_decide_eq_true hex) hw
  refine ⟨_, hstep, h.reply hp rfl rfl (by rw [htype]; rfl) (h.inv.step hstep)
    (congrArg (· ++ _) h.history) hrows (fun w' hw => frame_unlock hw)
    (fun j op' hj => frameAt_unlock (rowLock_ne hj _ _)) ?_ (fun l hl' hw => ?_)
    ⟨op, act, hmsg.seq, hmsg.op_eq, hmsg.act_eq, hmsg.remote, hmsg.rid, hmsg.sender, nofun,
      fun _ => ⟨hcl, hsender⟩, nofun, nofun, nofun, fun _ => hmsg.sender⟩⟩
  · refine hth.step rfl rfl p.msg.op (fun _ _ => rfl)
      (fun j op' hj => frameAt_unlock (rowLock_ne hj _ _)) (fun _ _ _ => Phase.Frame.refl _ _)
      (fun act' hact' => ⟨op, hmsg.op_eq, ?_⟩) hth.len (fun hg => ?_)
      (fun hc => not_wrote_concat (hth.clean hc) nofun)
      (fun hc => List.mem_append_left _ (hth.committed hc)) fun e he =>
      mem_or_seq_of_mem_concat rfl he
    · obtain rfl := Option.some.inj (hmsg.act_eq.symm.trans hact')
      refine hmsg.entryOk hth fun hfut => ?_
      generalize act.future = g at hfut
      cases hfut with
      | waiting hawait => rw [hawait] at hcl; cases hcl
      | answered hawait => rw [hawait] at hcl; cases hcl
      | refused _ hnot => exact absurd hl hnot
      | granted hnames hm =>
        refine .granted hnames hm (fun hcl' => Bool.noConfusion (hcl.symm.trans hcl')) fun _ => ?_
        exact Or.inr (released_concat.mpr (Or.inr ⟨_, rfl, rfl⟩))
    · exact Bool.noConfusion ((Phase.growing_of_cleared hcl).symm.trans hg)
  · have hmem : l ∈ a.held := List.mem_of_mem_erase hl'
    have hold := ho.held l hmem hw
    have hne : l.op ≠ p.msg.op := fun heq => by
      obtain ⟨op', hop', hlop⟩ := hold.op_eq
      rw [heq] at hop' hlop
      obtain rfl := Option.some.inj (hmsg.op_eq.symm.trans hop')
      exact h.inv.nodup.not_mem_erase (hlop ▸ hl')
    refine hold.mono rfl rfl (Nat.le_refl _) id fun p' hp' _ hop' => ?_
    have hne' : p' ≠ p := fun heq => hne (hop'.symm.trans (congrArg (·.msg.op) heq))
    exact List.mem_cons_of_mem _ ((List.mem_erase_of_ne hne').mpr hp')

theorem Coupled.getRes (h : Coupled c store₀ s a) {tid i : ℕ} (hp : p ∈ s.net)
    (htype : p.msg.type = .tupleGetRes)
    (hfut : s.openFutures (p.dst, p.msg.msgId) = some (tid, i)) :
    Coupled c store₀ ({ s with
      net := s.net.erase p
      openFutures := Function.update s.openFutures (p.dst, p.msg.msgId) none }.setThread
      ⟨p.dst, tid⟩
      { s.threads ⟨p.dst, tid⟩ with
        log := (s.threads ⟨p.dst, tid⟩).log.modify i fun act =>
          { act with future := act.future.setPkt p.msg } }) a := by
  obtain ⟨op, act, hmsg⟩ := (h.own p.msg.att.worker).msg p hp rfl
  obtain ⟨hdst, hans⟩ := hmsg.getRes htype
  obtain ⟨hphase, hpkt, htuple, hfut'⟩ := hmsg.waiting (by rw [htype]; rfl)
  -- the message id leads to the thread and the operation of the message
  have hput : p.msg.type.isPut = false := by rw [htype]; rfl
  rw [hdst] at hfut ⊢
  obtain ⟨rfl, rfl⟩ := Prod.mk.inj (Option.some.inj (hfut.symm.trans hfut'))
  have hw : (⟨p.msg.att.worker.nid, p.msg.att.worker.tid⟩ : NodeT) = p.msg.att.worker := rfl
  rw [hw]
  have ho := h.own p.msg.att.worker
  have hth := ho.thread
  have hget : ∀ j, ((s.threads p.msg.att.worker).log.modify p.msg.op fun act =>
      { act with future := act.future.setPkt p.msg })[j]? =
      if p.msg.op = j then (s.threads p.msg.att.worker).log[j]?.map fun act =>
        { act with future := act.future.setPkt p.msg }
      else (s.threads p.msg.att.worker).log[j]? := by
    intro j
    rw [List.getElem?_modify]
    split_ifs <;> simp
  -- only the future of this operation was registered under the message id
  have hfuts : ∀ (w' : NodeT) id j, (w' = p.msg.att.worker → j ≠ p.msg.op) →
      s.openFutures (w'.nid, id) = some (w'.tid, j) →
      Function.update s.openFutures (p.msg.att.worker.nid, p.msg.msgId) none (w'.nid, id) =
        some (w'.tid, j) := by
    intro w' id j hne hx
    rw [Function.update_of_ne, hx]
    intro hkey
    obtain ⟨hnid, rfl⟩ := Prod.mk.inj hkey
    rw [hnid] at hx
    obtain ⟨htid, hj⟩ := Prod.mk.inj (Option.some.inj (hx.symm.trans hfut))
    refine hne ?_ hj
    obtain ⟨n, t⟩ := w'
    exact hw ▸ (NodeT.mk.injEq _ _ _ _).mpr ⟨hnid, htid⟩
  refine h.move p.msg.att.worker h.inv h.history h.rows ⟨h.net.nodup_erase p, ?_, fun w' => ?_⟩
    (own_of (Function.update_self _ _ _) ?_ ?_ ?_) (fun w' _ => Frame.refl a w')
    (fun w' hw' => Function.update_of_ne (Ne.symm hw') _ _)
    (fun p' hw' => List.mem_erase_of_ne fun heq => hw' (heq ▸ rfl))
    (fun w' hw' id j => hfuts w' id j fun heq => absurd heq.symm hw')
  · -- the entry of the message id is erased, the others are below the next id as before
    intro n id x hx
    by_cases hkey : (n, id) = (p.msg.att.worker.nid, p.msg.msgId)
    · have hnone : Function.update s.openFutures (p.msg.att.worker.nid, p.msg.msgId) none (n, id) =
          none := by rw [hkey, Function.update_self]
      exact nomatch hx.symm.trans hnone
    · exact h.net.futs n id x ((Function.update_of_ne hkey _ _).symm.trans hx)
  · -- an answer to a get is not counted among the put responses
    have hno : ¬isPutOf w' p = true := fun hx =>
      Bool.noConfusion (hput.symm.trans (isPutOf_iff.mp hx).1)
    show s.putResponses w' = (s.net.erase p).countP (isPutOf w')
    rw [h.net.puts, countP_erase hp, if_neg hno, Nat.add_zero]
  · -- the thread still waits; its entry has the answer now
    refine hth.step rfl rfl p.msg.op (fun j hj => ?_) (fun _ _ _ => FrameAt.refl _ _)
      (fun _ _ _ => Phase.Frame.refl _ _) (fun act' hact' => ⟨op, hmsg.op_eq, ?_⟩)
      (fun m hm => ?_) hth.growing hth.clean hth.committed fun e he => Or.inl he
    · exact (hget j).trans (if_neg hj.symm)
    · rw [hget, if_pos rfl, hmsg.act_eq] at hact'
      obtain rfl := Option.some.inj hact'
      refine hmsg.entryOk hth fun _ => ?_
      rw [TupleFuture.setPkt, htuple]
      exact .answered hphase ⟨hmsg.seq, rfl, hmsg.rid⟩ hans
    · rw [List.length_modify]
      exact hth.len m hm
  · -- a lock whose put request is on the way: that request is another message
    intro l hl hw'
    refine (ho.held l hl hw').mono rfl rfl (by rw [List.length_modify]) id
      fun p' hp' htype' _ => ?_
    refine (List.mem_erase_of_ne ?_).mpr hp'
    rintro rfl
    exact nomatch htype.symm.trans htype'
  · intro p' hp' hw'
    have hne := h.op_ne_of_mem_erase hp hp' hw'
    obtain ⟨op', act', hmsg'⟩ := ho.msg p' (List.mem_of_mem_erase hp') hw'
    refine ⟨op', act', hmsg'.transfer (FrameAt.refl _ _) rfl rfl ?_ id id
      (hfuts p.msg.att.worker _ _ fun _ => hne)⟩
    exact (hget _).trans ((if_neg hne.symm).trans hmsg'.act_eq)

theorem Coupled.putRes (h : Coupled c store₀ s a) (hp : p ∈ s.net)
    (htype : p.msg.type = .tuplePutRes) :
    Coupled c store₀ { s with
      net := s.net.erase p
      putResponses := Function.update s.putResponses ⟨p.dst, p.msg.sender.tid⟩
        (s.putResponses ⟨p.dst, p.msg.sender.tid⟩ - 1) } a := by
  have ho := h.own p.msg.att.worker
  obtain ⟨op, act, hmsg⟩ := ho.msg p hp rfl
  have hput : p.msg.type.isPut = true := by rw [htype]; rfl
  -- the response comes back to the thread that waits for it
  have hw : (⟨p.dst, p.msg.sender.tid⟩ : NodeT) = p.msg.att.worker := by
    rw [hmsg.putRes htype, (hmsg.releasing hput).2]
  rw [hw]
  refine h.move p.msg.att.worker h.inv h.history h.rows
    ⟨h.net.nodup_erase p, h.net.futs, fun w' => ?_⟩
    ⟨ho.thread, fun l hl hw' => ?_, fun p' hp' => ho.msg p' (List.mem_of_mem_erase hp')⟩
    (fun w' _ => Frame.refl a w') (fun _ _ => rfl)
    (fun p' hw' => List.mem_erase_of_ne fun heq => hw' (heq ▸ rfl)) (fun _ _ _ _ => id)
  · show Function.update s.putResponses _ _ w' = (s.net.erase p).countP (isPutOf w')
    have hcount := countP_erase hp w'
    by_cases heq : w' = p.msg.att.worker
    · subst heq
      rw [if_pos (isPutOf_iff.mpr ⟨hput, rfl⟩)] at hcount
      rw [Function.update_self, h.net.puts, hcount, Nat.add_sub_cancel]
    · rw [if_neg fun hx => heq (isPutOf_iff.mp hx).2.symm, Nat.add_zero] at hcount
      rw [Function.update_of_ne heq, h.net.puts, hcount]
  · refine (ho.held l hl hw').mono rfl rfl (Nat.le_refl _) id fun p' hp' htype' _ => ?_
    refine (List.mem_erase_of_ne ?_).mpr hp'
    rintro rfl
    exact nomatch htype.symm.trans htype'

/-! ### All moves -/

/-- **Every move keeps the coupling.** -/
theorem Coupled.of_move (h : Coupled c store₀ s a) {action : Action} (hmove : Move c s action s') :
    ∃ a', Relation.ReflGen Step a a' ∧ Coupled c store₀ s' a' := by
  have hmoved : ∀ {s'}, (∃ a', Step a a' ∧ Coupled c store₀ s' a') →
      ∃ a', Relation.ReflGen Step a a' ∧ Coupled c store₀ s' a' := fun ⟨a', hstep, h'⟩ =>
    ⟨a', .single hstep, h'⟩
  cases hmove with
  | enter hphase hplaced => exact ⟨a, .refl, h.enter hphase hplaced⟩
  | endAcquire hphase hop => exact ⟨a, .refl, h.endAcquire hphase hop⟩
  | refuse hphase => exact ⟨a, .refl, h.refuse hphase⟩
  | lockLocal hphase hop hlocal hacq => exact hmoved (h.lockLocal hphase hop hlocal hacq)
  | request hphase hop hremote hnew => exact ⟨a, .refl, h.request hphase hop hremote hnew⟩
  | awaitRefused hphase hact hget hf => exact ⟨a, .refl, h.awaitRefused hphase hact hget hf⟩
  | awaitGranted hphase hact hget hf => exact ⟨a, .refl, h.awaitGranted hphase hact hget hf⟩
  | toAlloc hphase => exact ⟨a, .refl, h.toAlloc hphase⟩
  | @commit w i _ hphase hop =>
    exact hmoved (h.commit (by rw [hphase]; rfl) (by rw [hphase]; exact nofun)
      ((h.own w).thread.len _ (by rw [hphase]; rfl)))
  | writeRow hphase hop hact hget hf hmode =>
    exact hmoved (h.writeRow hphase hop hact hget hf hmode)
  | readRow hphase hop hact hget hf hmode => exact hmoved (h.readRow hphase hop hact hget hf hmode)
  | writePacket hphase hop hact hget hf hpkt hmode =>
    exact hmoved (h.writePacket hphase hop hact hget hf hpkt hmode)
  | readPacket hphase hop hact hget hf hpkt hmode =>
    exact hmoved (h.readPacket hphase hop hact hget hf hpkt hmode)
  | @accessNull w i op act f _ hphase hop hact hget hf =>
    exact absurd hf ((h.own w).access_ne_null hphase hop hact hget)
  | @alloc w mb q _ hphase =>
    obtain ⟨a', hstep, h'⟩ := h.commit (by rw [hphase]; rfl) (by rw [hphase]; exact nofun)
      ((h.own w).thread.len _ (by rw [hphase]; rfl))
    exact ⟨a', .single hstep, h'.congr rfl rfl rfl rfl rfl rfl rfl⟩
  | endClear hphase hact => exact ⟨a, .refl, h.endClear hphase hact⟩
  | clearLocal hphase hact htarget hput => exact hmoved (h.clearLocal hphase hact htarget hput)
  | clearSkip hphase hact htarget hget hf =>
    exact ⟨a, .refl, h.clearSkip hphase hact htarget hget hf⟩
  | clearRemote hphase hact htarget hget hf hpkt =>
    exact ⟨a, .refl, h.clearRemote hphase hact htarget hget hf hpkt⟩
  | finish hphase hputs => exact ⟨a, .refl, h.finish hphase hputs⟩
  | getReqRefused hp htype => exact ⟨a, .refl, h.getReqRefused hp htype⟩
  | getReqGranted hp htype hacq => exact hmoved (h.getReqGranted hp htype hacq)
  | getRes hp htype hfut => exact ⟨a, .refl, h.getRes hp htype hfut⟩
  | putReq hp htype => exact hmoved (h.putReq hp htype)
  | putRes hp htype => exact ⟨a, .refl, h.putRes hp htype⟩
  | doneSending => exact ⟨a, .refl, h.congr rfl rfl rfl rfl rfl rfl rfl⟩

/-- The values the machine starts with: those of the rows that count. -/
def initStore (c : Config) (value : ℕ → DbKey → BitVec 32) (k : DbKey) : BitVec 32 :=
  value (c.owner k) k

theorem coupled_init (c : Config) (value : ℕ → DbKey → BitVec 32)
    (mem : ℕ → ℕ → HotTxnEntry Attempt) :
    Coupled c (initStore c value) (init value mem) (State.init (initStore c value)) where
  inv := inv_init _
  history := rfl
  rows := ⟨fun _ => Row.lockInv_init _, fun _ _ => rfl⟩
  net := ⟨List.nodup_nil, nofun, fun _ => rfl⟩
  own w := by
    refine ⟨⟨?_, fun m hm => Option.some.inj hm, fun i act hact => ?_, nofun, nofun, nofun, nofun⟩,
      nofun, nofun⟩
    · have hcold : ((init value mem).threads w).txn.cold = [] := rfl
      intro op hop
      rw [hcold] at hop
      cases hop
    · exact nomatch List.getElem?_nil.symm.trans hact

end P4db.System
