import P4db.Ee.Equiv.Serializable

/-!
# What a step does to rows, history and calls

`Change` is a coarser list than `Move`: a call begins, a call returns, one event happens for a call
that is running, or none of these.  An event takes one lock (`Grants`), gives one back (`Releases`),
or leaves the locks alone (`KeepsLocks`), always at the row that counts.
-/

namespace P4db

open TwoPhase

namespace System

variable {c : Config} {s s' : System} {a : Ledger} {w : NodeT} {l : RowLock}
  {store₀ : DbKey → BitVec 32}

/-! ### Changes of the rows -/

/-- A step takes the lock `l` at the owner of its key: the row counts one more owner, and nothing
else changes in the rows. -/
structure Grants (c : Config) (s s' : System) (l : RowLock) : Prop where
  history : s'.history = s.history ++ [.lock l]
  row : s'.rows (c.owner l.item, l.item) =
    { s.rows (c.owner l.item, l.item) with
      ownerCnt := (s.rows (c.owner l.item, l.item)).ownerCnt + 1, lockType := lockMode l }
  others : ∀ nk, nk ≠ (c.owner l.item, l.item) → s'.rows nk = s.rows nk

/-- A step gives the lock `l` back at the owner of its key: the row counts one owner less, only a
write lock of another node changes its value, and no other row changes. -/
structure Releases (c : Config) (s s' : System) (l : RowLock) : Prop where
  history : s'.history = s.history ++ [.unlock l]
  count : (s.rows (c.owner l.item, l.item)).ownerCnt =
    (s'.rows (c.owner l.item, l.item)).ownerCnt + 1
  tuple : l.excl = false ∨ l.txn.worker.nid = c.owner l.item →
    (s'.rows (c.owner l.item, l.item)).tuple = (s.rows (c.owner l.item, l.item)).tuple
  others : ∀ nk, nk ≠ (c.owner l.item, l.item) → s'.rows nk = s.rows nk

/-- A step neither takes nor gives back a lock; if it changes the value of a row, it is a write by a
thread of its owner. -/
structure KeepsLocks (c : Config) (s s' : System) : Prop where
  lock : ∀ l, s'.history.count (.lock l) = s.history.count (.lock l)
  unlock : ∀ l, s'.history.count (.unlock l) = s.history.count (.unlock l)
  rows : ∀ nk, s'.rows nk = { s.rows nk with tuple := (s'.rows nk).tuple }
  tuple : ∀ nk, s'.rows nk = s.rows nk ∨ ∃ l v, s'.history = s.history ++ [.write l v] ∧
    nk = (c.owner l.item, l.item) ∧ l.txn.worker.nid = c.owner l.item

/-- What happens for the operations of a transaction: its locks are those of the operations, and it
writes their values. -/
def Fits (txn : Txn) : Event Attempt DbKey (BitVec 32) → Prop
  | .lock l => ∃ op, txn.cold[l.op]? = some op ∧ l = ⟨l.txn, l.op, op.id, decide (op.mode = .write)⟩
  | .write l v => ∃ op, txn.cold[l.op]? = some op ∧ v = op.value
  | _ => True

/-- No call begins or returns. -/
structure SameCalls (s s' : System) : Prop where
  started : s'.started = s.started
  finished : s'.finished = s.finished

/-- What a step does. -/
inductive Change (c : Config) (s s' : System) : Prop
  | begins {w txn mb} (hhist : s'.history = s.history) (hrows : s'.rows = s.rows)
      (hstart : s'.started = (⟨w, (s.threads w).seq + 1⟩, txn, mb) :: s.started)
      (hfin : s'.finished = s.finished)
  | returns {w rc} (hhist : s'.history = s.history) (hrows : s'.rows = s.rows)
      (hphase : (s.threads w).phase = .waitPuts rc) (hstart : s'.started = s.started)
      (hfin : s'.finished = (s.attempt w, rc) :: s.finished)
  | quiet (hhist : s'.history = s.history) (hrows : s'.rows = s.rows) (hcalls : SameCalls s s')
  | event {w e} (hhist : s'.history = s.history ++ [e]) (hphase : (s.threads w).phase ≠ .idle)
      (htxn : e.txn = s.attempt w) (hfits : Fits (s.threads w).txn e) (hcalls : SameCalls s s')
      (hlocks : (∃ l, Grants c s s' l) ∨ (∃ l, Releases c s s' l) ∨ KeepsLocks c s s')

theorem keepsLocks_of_rows (hhist : s'.history = s.history) (hrows : s'.rows = s.rows) :
    KeepsLocks c s s' :=
  ⟨fun _ => by rw [hhist], fun _ => by rw [hhist], fun _ => by rw [hrows], fun _ => by
    rw [hrows]; exact Or.inl rfl⟩

/-- An event that is neither a lock nor a release leaves the locks alone. -/
theorem keepsLocks_of_event {e : Event Attempt DbKey (BitVec 32)} (hlock : ∀ l, e ≠ .lock l)
    (hunlock : ∀ l, e ≠ .unlock l) (hhist : s'.history = s.history ++ [e])
    (hrows : ∀ nk, s'.rows nk = { s.rows nk with tuple := (s'.rows nk).tuple })
    (htuple : ∀ nk, s'.rows nk = s.rows nk ∨ ∃ l v, s'.history = s.history ++ [.write l v] ∧
      nk = (c.owner l.item, l.item) ∧ l.txn.worker.nid = c.owner l.item) : KeepsLocks c s s' := by
  refine ⟨fun l => ?_, fun l => ?_, hrows, htuple⟩
  · rw [hhist, List.count_append, List.count_singleton]
    simp [hlock l]
  · rw [hhist, List.count_append, List.count_singleton]
    simp [hunlock l]

/-- A write in place. -/
theorem Coupled.keepsLocks_writeRow (h : Coupled c store₀ s a) {i : ℕ} {op : Op}
    (hop : (s.threads w).txn.cold[i]? = some op) (hlocal : op.locInfo.isLocal = true)
    (hrows : s'.rows =
      Function.update s.rows (w.nid, op.id) { s.rows (w.nid, op.id) with tuple := op.value })
    (hhist : s'.history = s.history ++ [.write (rowLock w (s.threads w) i op) op.value]) :
    KeepsLocks c s s' := by
  have howner : c.owner op.id = w.nid := ((h.own w).thread.isLocal_iff hop).mp hlocal
  refine keepsLocks_of_event (e := .write (rowLock w (s.threads w) i op) op.value) nofun nofun hhist
    (fun nk => ?_) fun nk => ?_
  all_goals
    rw [hrows]
    by_cases hnk : nk = (w.nid, op.id)
  · subst hnk
    rw [Function.update_self]
  · rw [Function.update_of_ne hnk]
  · exact Or.inr ⟨_, _, hhist, hnk.trans (by rw [← howner]; rfl), howner.symm⟩
  · rw [Function.update_of_ne hnk]
    exact Or.inl rfl

/-- The row of a grant. -/
theorem grants_of_update {n : ℕ} {k : DbKey} {mode : AccessMode} {id : TxnId} {row : Row}
    (hacq : (s.rows (n, k)).acquire mode id = some (some row)) (hn : n = c.owner l.item)
    (hk : k = l.item) (hmode : mode = lockMode l)
    (hrows : s'.rows = Function.update s.rows (n, k) row)
    (hhist : s'.history = s.history ++ [.lock l]) : Grants c s s' l := by
  subst hn hk hmode
  obtain ⟨-, -, rfl⟩ := Row.acquire_eq_some_some.mp hacq
  refine ⟨hhist, ?_, fun nk hnk => ?_⟩
  · rw [hrows, Function.update_self]
  · rw [hrows, Function.update_of_ne hnk]

/-- The row of a release: `v` is its value, the old one unless it comes from another node. -/
theorem releases_of_update (h : Coupled c store₀ s a) (hl : l ∈ a.held) (id : TxnId) (v : BitVec 32)
    (hrows : s'.rows = Function.update s.rows (c.owner l.item, l.item)
      (Row.localUnlock { s.rows (c.owner l.item, l.item) with tuple := v } (lockMode l) id).2)
    (hv : l.excl = false ∨ l.txn.worker.nid = c.owner l.item →
      v = (s.rows (c.owner l.item, l.item)).tuple)
    (hhist : s'.history = s.history ++ [.unlock l]) : Releases c s s' l := by
  have hinv := h.rows.lockInv_cons hl
  have hinv' : Row.LockInv { s.rows (c.owner l.item, l.item) with tuple := v }
      (lockMode l :: modesOn (a.held.erase l) l.item) := hinv.congr rfl rfl
  obtain ⟨-, hinv'', -, htuple⟩ := hinv'.localUnlock id
  refine ⟨hhist, ?_, fun hcase => ?_, fun nk hnk => ?_⟩
  · rw [hrows, Function.update_self, hinv''.count, hinv.count]
    rfl
  · rw [hrows, Function.update_self, htuple]
    exact hv hcase
  · rw [hrows, Function.update_of_ne hnk]

theorem fits_lock {th : Thread} {i : ℕ} {op : Op} (hop : th.txn.cold[i]? = some op) :
    Fits th.txn (.lock (rowLock w th i op)) :=
  ⟨op, hop, rfl⟩

theorem fits_write {th : Thread} {i : ℕ} {op : Op} (hop : th.txn.cold[i]? = some op) :
    Fits th.txn (.write (rowLock w th i op) op.value) :=
  ⟨op, hop, rfl⟩

theorem Coupled.change_lockLocal (h : Coupled c store₀ s a) {i : ℕ} {op : Op} {row : Row}
    (hphase : (s.threads w).phase = .acquire i) (hop : (s.threads w).txn.cold[i]? = some op)
    (hlocal : op.locInfo.isLocal = true)
    (hacq : (s.rows (w.nid, op.id)).acquire op.mode (s.threads w).txn.id = some (some row))
    (hrows : s'.rows = Function.update s.rows (w.nid, op.id) row)
    (hhist : s'.history = s.history ++ [.lock (rowLock w (s.threads w) i op)])
    (hcalls : SameCalls s s') : Change c s s' := by
  have howner : c.owner op.id = w.nid := ((h.own w).thread.isLocal_iff hop).mp hlocal
  exact .event hhist (by rw [hphase]; exact nofun) rfl (fits_lock hop) hcalls
    (Or.inl ⟨_, grants_of_update hacq howner.symm rfl
      (lockMode_rowLock (mode_ne_invalid_of_cold hop)).symm hrows hhist⟩)

theorem Coupled.change_clearLocal (h : Coupled c store₀ s a) {rc : RC} {j : ℕ} {act : UndoAction}
    {row : Row} (hphase : (s.threads w).phase = .clear rc j)
    (hact : (s.threads w).log[j]? = some act) (htarget : act.target = none)
    (hput : (s.rows (w.nid, act.index)).localUnlock act.mode act.future.lastAcq = (.success, row))
    (hrows : s'.rows = Function.update s.rows (w.nid, act.index) row)
    (hhist : s'.history =
      s.history ++ [.unlock ⟨s.attempt w, j, act.index, decide (act.mode = .write)⟩])
    (hcalls : SameCalls s s') : Change c s s' := by
  have hth := (h.own w).thread
  obtain ⟨op, hop, hok, -, -⟩ := (h.own w).clear_cases hphase hact
  have hlocal : op.locInfo.isLocal = true := hok.isLocal_of_target htarget
  have howner : c.owner op.id = w.nid := (hth.isLocal_iff hop).mp hlocal
  have hl : rowLock w (s.threads w) j op ∈ a.held :=
    (hok.ofLocal hlocal).2.2.1 (by rw [hphase]; exact decide_eq_false (Nat.lt_irrefl j))
  rw [hok.index, hok.mode] at hput hhist
  rw [hok.index] at hrows
  rw [← howner, ← @lockMode_rowLock w (s.threads w) j op (mode_ne_invalid_of_cold hop)] at hput
  obtain rfl := congrArg Prod.snd hput
  rw [← howner] at hrows
  exact .event hhist (by rw [hphase]; exact nofun) rfl trivial hcalls
    (Or.inr (Or.inl ⟨_, releases_of_update h hl _ _ hrows (fun _ => rfl) hhist⟩))

theorem Coupled.change_getReqGranted (h : Coupled c store₀ s a) {p : Packet} {row : Row}
    (hp : p ∈ s.net) (htype : p.msg.type = .tupleGetReq)
    (hacq : (s.rows (p.dst, p.msg.rid)).acquire p.msg.mode (TxnId.ofPacked p.msg.pack) =
      some (some row))
    (hrows : s'.rows = Function.update s.rows (p.dst, p.msg.rid) row)
    (hhist : s'.history = s.history ++ [.lock p.msg.rowLock]) (hcalls : SameCalls s s') :
    Change c s s' := by
  obtain ⟨op, act, hmsg⟩ := (h.own p.msg.att.worker).msg p hp rfl
  obtain ⟨hdst, hmode, -⟩ := hmsg.getReq htype
  obtain ⟨hphase, -⟩ := hmsg.waiting (by rw [htype]; rfl)
  have hlock := hmsg.rowLock_eq hmode
  refine .event hhist (by rw [hphase]; exact nofun) hmsg.seq ⟨op, hmsg.op_eq, ?_⟩ hcalls
    (Or.inl ⟨_, grants_of_update hacq (hdst.trans ?_) rfl ?_ hrows hhist⟩)
  · rw [TupleMsg.rowLock, hmsg.rid, hmode]
  · rw [TupleMsg.rowLock, hmsg.rid]
  · rw [hlock, lockMode_rowLock (mode_ne_invalid_of_cold hmsg.op_eq), hmode]

theorem Coupled.change_putReq (h : Coupled c store₀ s a) {p : Packet} (hp : p ∈ s.net)
    (htype : p.msg.type = .tuplePutReq)
    (hrows : s'.rows = Function.update s.rows (p.dst, p.msg.rid)
      ((s.rows (p.dst, p.msg.rid)).remoteUnlock p.msg.mode p.msg.tuple p.msg.pack))
    (hhist : s'.history = s.history ++ [.unlock p.msg.rowLock]) (hcalls : SameCalls s s') :
    Change c s s' := by
  obtain ⟨op, act, hmsg⟩ := (h.own p.msg.att.worker).msg p hp rfl
  obtain ⟨hdst, hmode, hl, -⟩ := hmsg.putReq htype
  have hcl := (hmsg.releasing (by rw [htype]; rfl)).1
  have hne : (s.threads p.msg.att.worker).phase ≠ .idle := by
    intro hidle
    rw [hidle] at hcl
    cases hcl
  have hlock := hmsg.rowLock_eq hmode
  have hmode' : p.msg.mode = lockMode p.msg.rowLock := by
    rw [hlock, lockMode_rowLock (mode_ne_invalid_of_cold hmsg.op_eq), hmode]
  rw [← hlock] at hl
  refine .event hhist hne hmsg.seq trivial hcalls (Or.inr (Or.inl ⟨p.msg.rowLock, ?_⟩))
  -- a row of another node: only a write lock brings a value back
  have hremote : p.msg.att.worker.nid ≠ c.owner op.id := fun heq =>
    Bool.noConfusion (hmsg.remote.symm.trans
      (((h.own _).thread.isLocal_iff hmsg.op_eq).mpr heq.symm))
  rw [hdst, hmsg.rid] at hrows
  by_cases hwrite : p.msg.mode = .write
  · refine releases_of_update h hl (TxnId.ofPacked p.msg.pack) p.msg.tuple ?_ ?_ hhist
    · rw [hrows, Row.remoteUnlock, if_pos hwrite, ← hmode', TupleMsg.rowLock, hmsg.rid]
    · rw [TupleMsg.rowLock, hmsg.rid]
      rintro (hsh | hnid)
      · exact absurd hwrite (of_decide_eq_false hsh)
      · exact absurd hnid hremote
  · refine releases_of_update h hl (TxnId.ofPacked p.msg.pack) _ ?_ (fun _ => rfl) hhist
    rw [hrows, Row.remoteUnlock, if_neg hwrite, ← hmode', TupleMsg.rowLock, hmsg.rid]

theorem Coupled.change (h : Coupled c store₀ s a) {action : Action} (hmove : Move c s action s') :
    Change c s s' := by
  -- a commit, a read or a write into a packet
  have hevent : ∀ {w e} {s' : System}, s'.history = s.history ++ [e] →
      (s.threads w).phase ≠ .idle → e.txn = s.attempt w → Fits (s.threads w).txn e →
      s'.rows = s.rows → SameCalls s s' → (∀ l, e ≠ .lock l) → (∀ l, e ≠ .unlock l) →
      Change c s s' :=
    fun hhist hphase htxn hfits hrows hcalls hlock hunlock =>
      .event hhist hphase htxn hfits hcalls (Or.inr (Or.inr (keepsLocks_of_event hlock hunlock hhist
        (fun _ => by rw [hrows]) fun _ => by rw [hrows]; exact Or.inl rfl)))
  cases hmove with
  | enter => exact .begins rfl rfl rfl rfl
  | finish hphase => exact .returns rfl rfl hphase rfl rfl
  | lockLocal hphase hop hlocal hacq =>
    exact h.change_lockLocal hphase hop hlocal hacq rfl rfl ⟨rfl, rfl⟩
  | clearLocal hphase hact htarget hput =>
    exact h.change_clearLocal hphase hact htarget hput rfl rfl ⟨rfl, rfl⟩
  | getReqGranted hp htype hacq => exact h.change_getReqGranted hp htype hacq rfl rfl ⟨rfl, rfl⟩
  | putReq hp htype => exact h.change_putReq hp htype rfl rfl ⟨rfl, rfl⟩
  | @writeRow w i op act f _ hphase hop hact hget hf hmode =>
    have hlocal : op.locInfo.isLocal = true := by
      obtain ⟨-, ⟨hlocal, -⟩ | ⟨-, res, hres, -⟩⟩ := (h.own w).access_cases hphase hop hact hget
      · exact hlocal
      · rw [hres] at hf
        cases hf
    exact .event (e := .write (rowLock w (s.threads w) i op) op.value) rfl
      (by rw [hphase]; exact nofun) rfl (fits_write hop) ⟨rfl, rfl⟩
      (Or.inr (Or.inr (h.keepsLocks_writeRow hop hlocal rfl rfl)))
  | commit hphase =>
    exact hevent rfl (by rw [hphase]; exact nofun) rfl trivial rfl ⟨rfl, rfl⟩ nofun nofun
  | alloc hphase =>
    exact hevent rfl (by rw [hphase]; exact nofun) rfl trivial rfl ⟨rfl, rfl⟩ nofun nofun
  | readRow hphase =>
    exact hevent rfl (by rw [hphase]; exact nofun) rfl trivial rfl ⟨rfl, rfl⟩ nofun nofun
  | readPacket hphase =>
    exact hevent rfl (by rw [hphase]; exact nofun) rfl trivial rfl ⟨rfl, rfl⟩ nofun nofun
  | writePacket hphase hop =>
    exact hevent rfl (by rw [hphase]; exact nofun) rfl (fits_write hop) rfl ⟨rfl, rfl⟩ nofun nofun
  | endAcquire | refuse | request | awaitRefused | awaitGranted | toAlloc | accessNull | endClear
  | clearSkip | clearRemote | getReqRefused | getRes | putRes | doneSending =>
    exact .quiet rfl rfl ⟨rfl, rfl⟩

theorem Coupled.change_of_step (h : Coupled c store₀ s a) {action : Action}
    (hstep : s.step c action = some s') : Change c s s' := by
  rcases step_cases hstep with hmove | ⟨f, -, rfl⟩
  · exact h.change hmove
  · exact .quiet rfl rfl ⟨rfl, rfl⟩

theorem Change.locks (h : Change c s s') :
    (∃ l, Grants c s s' l) ∨ (∃ l, Releases c s s' l) ∨ KeepsLocks c s s' := by
  cases h with
  | begins hhist hrows | returns hhist hrows | quiet hhist hrows =>
    exact Or.inr (Or.inr (keepsLocks_of_rows hhist hrows))
  | event _ _ _ _ _ hlocks => exact hlocks

/-- The lock of a step that records one is taken by that step. -/
theorem Change.grants (h : Change c s s') (hnot : .lock l ∉ s.history) (hl : .lock l ∈ s'.history) :
    Grants c s s' l := by
  rcases h.locks with ⟨l', hg⟩ | ⟨l', hr⟩ | hk
  · rw [hg.history, List.mem_append] at hl
    obtain rfl := Event.lock.inj (List.mem_singleton.mp (hl.resolve_left hnot))
    exact hg
  · rw [hr.history, List.mem_append] at hl
    exact nomatch List.mem_singleton.mp (hl.resolve_left hnot)
  · rw [← List.count_pos_iff, hk.lock, List.count_pos_iff] at hl
    exact absurd hl hnot

/-- A step that records a release is one. -/
theorem Change.releases_of_history (h : Change c s s')
    (hhist : s'.history = s.history ++ [.unlock l]) : Releases c s s' l := by
  rcases h.locks with ⟨l', hg⟩ | ⟨l', hr⟩ | hk
  · exact nomatch (List.append_singleton_inj.mp (hg.history.symm.trans hhist)).2
  · obtain rfl := Event.unlock.inj (List.append_singleton_inj.mp (hr.history.symm.trans hhist)).2
    exact hr
  · have hcount := hk.unlock l
    rw [hhist, List.count_append, List.count_singleton_self] at hcount
    omega

theorem Change.releases (h : Change c s s') (hnot : .unlock l ∉ s.history)
    (hl : .unlock l ∈ s'.history) : Releases c s s' l := by
  rcases h.locks with ⟨l', hg⟩ | ⟨l', hr⟩ | hk
  · rw [hg.history, List.mem_append] at hl
    exact nomatch List.mem_singleton.mp (hl.resolve_left hnot)
  · rw [hr.history, List.mem_append] at hl
    obtain rfl := Event.unlock.inj (List.mem_singleton.mp (hl.resolve_left hnot))
    exact hr
  · rw [← List.count_pos_iff, hk.unlock, List.count_pos_iff] at hl
    exact absurd hl hnot

end System

end P4db
