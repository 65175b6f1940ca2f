import P4db.Ee.Equiv.Executor

/-!
# The executor follows strict two-phase locking

`Coupled` ties the system to a state of the two-phase locking machine with the same history: which
locks the machine holds and what it stores, in terms of the rows, the logs of the threads and the
messages on their way.

A lock is taken at the row that counts, the one of the owner of its key, and from then on exactly
one place stands for it: an entry of the log of its thread, a `TupleGetRes` on its way, or a
`TuplePutReq` on its way.  Whoever has a copy of the tuple has the value the machine stores; the row
itself has it unless a thread of another node holds the write lock.

What concerns one thread is collected in `Own`.  A move is made by one thread, or by a handler on
its behalf, and `Own.frame` says that the other threads do not notice.
-/

namespace P4db

open TwoPhase

/-- A state of the locking machine for the calls and keys of the system. -/
abbrev Ledger := TwoPhase.State Attempt DbKey (BitVec 32)

/-! ### Phases -/

namespace Phase

/-- The release of entry `i` of the log has begun. -/
def cleared : Phase → ℕ → Bool
  | .clear _ j, i => decide (i < j)
  | .waitPuts _, _ => true
  | _, _ => false

/-- No lock has been released yet. -/
def growing : Phase → Bool
  | .acquire _ | .await _ | .access _ | .alloc => true
  | _ => false

/-- The call returns `ROLLBACK`. -/
def rolledBack : Phase → Bool
  | .clear .rollback _ | .waitPuts .rollback => true
  | _ => false

/-- The call returns `COMMIT`. -/
def committed : Phase → Bool
  | .clear .commit _ | .waitPuts .commit => true
  | _ => false

/-- Nothing has been written. -/
def clean : Phase → Bool
  | .acquire _ | .await _ => true
  | ph => ph.rolledBack

/-- The length of the log, if the phase determines it, with `n` operations. -/
def logLength (n : ℕ) : Phase → Option ℕ
  | .idle => some 0
  | .acquire i => some i
  | .await i => some (i + 1)
  | .access _ | .alloc | .clear .commit _ | .waitPuts .commit => some n
  | _ => none

/-- A change of phase that means nothing to entry `i`. -/
structure Frame (ph ph' : Phase) (i : ℕ) : Prop where
  cleared : ph'.cleared i = ph.cleared i
  await : ph = .await i → ph' = .await i
  rolledBack : ph.rolledBack = true → ph'.rolledBack = true

theorem Frame.refl (ph : Phase) (i : ℕ) : Frame ph ph i := ⟨rfl, id, id⟩

variable {ph : Phase}

theorem cleared_of_growing (h : ph.growing = true) (i : ℕ) : ph.cleared i = false := by
  cases ph <;> first | rfl | cases h

theorem rolledBack_of_growing (h : ph.growing = true) : ph.rolledBack = false := by
  cases ph <;> first | rfl | cases h

theorem growing_of_cleared {i : ℕ} (h : ph.cleared i = true) : ph.growing = false := by
  cases ph <;> first | rfl | cases h

theorem clean_of_rolledBack (h : ph.rolledBack = true) : ph.clean = true := by
  match ph with
  | .clear .rollback _ | .waitPuts .rollback => rfl

/-- A call that releases its locks commits or rolls back. -/
theorem rolledBack_or_committed {i : ℕ} (h : ph.cleared i = true) :
    ph.rolledBack = true ∨ ph.committed = true := by
  match ph with
  | .clear .commit _ | .waitPuts .commit => exact Or.inr rfl
  | .clear .rollback _ | .waitPuts .rollback => exact Or.inl rfl

end Phase

/-- The message releases a lock, or answers one that did. -/
def MsgType.isPut : MsgType → Bool
  | .tuplePutReq | .tuplePutRes => true
  | _ => false

namespace System

/-! ### Entries of the log -/

/-- The mode of a lock. -/
def lockMode (l : RowLock) : AccessMode := if l.excl then .write else .read

/-- The modes in which a key is locked. -/
def modesOn (held : List RowLock) (k : DbKey) : List AccessMode :=
  (held.filter fun l => l.item = k).map lockMode

/-- The message speaks about the lock `l`, apart from its mode. -/
structure Names (m : TupleMsg) (l : RowLock) : Prop where
  att : m.att = l.txn
  op : m.op = l.op
  rid : m.rid = l.item

/-- The answer to a request: refused, or granted with a copy of the tuple. -/
def Answer (a : Ledger) (l : RowLock) (mode : AccessMode) (m : TupleMsg) : Prop :=
  m.mode = .invalid ∧ l ∉ a.held ∨ m.mode = mode ∧ l ∈ a.held ∧ m.tuple = a.store l.item

/-- The future of entry `i`, for a row of another node. -/
inductive FutureOk (a : Ledger) (l : RowLock) (mode : AccessMode) (ph : Phase) (i : ℕ) :
    TupleFuture → Prop
  | waiting {acq} (hphase : ph = .await i) : FutureOk a l mode ph i ⟨none, .null, acq⟩
  | answered {res acq} (hphase : ph = .await i) (hnames : Names res l)
      (hans : Answer a l mode res) : FutureOk a l mode ph i ⟨some res, .null, acq⟩
  | refused {pkt acq} (hphase : ph.rolledBack = true) (hnot : l ∉ a.held) :
      FutureOk a l mode ph i ⟨pkt, .exception, acq⟩
  | granted {res acq} (hnames : Names res l) (hmode : res.mode = mode)
      (hheld : ph.cleared i = false → l ∈ a.held ∧ res.tuple = a.store l.item)
      (hdone : ph.cleared i = true → l ∈ a.held ∨ Released a.history l.txn) :
      FutureOk a l mode ph i ⟨some res, .packet, acq⟩

/-- Entry `i` of the log belongs to operation `i`. -/
structure EntryOk (c : Config) (a : Ledger) (w : NodeT) (th : Thread) (i : ℕ) (op : Op)
    (act : UndoAction) : Prop where
  index : act.index = op.id
  mode : act.mode = op.mode
  ofLocal : op.locInfo.isLocal = true → act.target = none ∧ act.future.tuple = .row ∧
    (th.phase.cleared i = false → rowLock w th i op ∈ a.held) ∧
    (th.phase.cleared i = true → Released a.history ⟨w, th.seq⟩)
  ofRemote : op.locInfo.isLocal = false → act.target = some (c.owner op.id) ∧
    FutureOk a (rowLock w th i op) op.mode th.phase i act.future

/-- What holds of a thread. -/
structure ThreadOk (c : Config) (a : Ledger) (w : NodeT) (th : Thread) : Prop where
  placed : Placed c w.nid th.txn
  len : ∀ m, th.phase.logLength th.txn.cold.length = some m → th.log.length = m
  entry : ∀ i act, th.log[i]? = some act →
    ∃ op, th.txn.cold[i]? = some op ∧ EntryOk c a w th i op act
  growing : th.phase.growing = true → ¬Released a.history ⟨w, th.seq⟩
  clean : th.phase.clean = true → ¬Wrote a.history ⟨w, th.seq⟩
  committed : th.phase.committed = true → Committed a.history ⟨w, th.seq⟩
  fresh : ∀ e ∈ a.history, e.txn.worker = w → e.txn.seq ≤ th.seq

/-- What holds of a message about operation `op` of a thread, whose entry in the log is `act`. -/
structure MsgAt (c : Config) (a : Ledger) (futs : ℕ × ℕ → Option (ℕ × ℕ)) (w : NodeT) (th : Thread)
    (p : Packet) (op : Op) (act : UndoAction) : Prop where
  seq : p.msg.att = ⟨w, th.seq⟩
  op_eq : th.txn.cold[p.msg.op]? = some op
  act_eq : th.log[p.msg.op]? = some act
  remote : op.locInfo.isLocal = false
  rid : p.msg.rid = op.id
  sender : p.msg.sender.nid = w.nid
  waiting : p.msg.type.isPut = false → th.phase = .await p.msg.op ∧ act.future.pkt = none ∧
    act.future.tuple = .null ∧ futs (w.nid, p.msg.msgId) = some (w.tid, p.msg.op)
  releasing : p.msg.type.isPut = true → th.phase.cleared p.msg.op = true ∧ p.msg.sender = w
  getReq : p.msg.type = .tupleGetReq → p.dst = c.owner op.id ∧ p.msg.mode = op.mode ∧
    rowLock w th p.msg.op op ∉ a.held
  getRes : p.msg.type = .tupleGetRes → p.dst = w.nid ∧
    Answer a (rowLock w th p.msg.op op) op.mode p.msg
  putReq : p.msg.type = .tuplePutReq → p.dst = c.owner op.id ∧ p.msg.mode = op.mode ∧
    rowLock w th p.msg.op op ∈ a.held ∧ p.msg.tuple = a.store op.id
  putRes : p.msg.type = .tuplePutRes → p.dst = w.nid

/-- A lock that is held belongs to an operation whose release has not begun, or is about to be
released by a message. -/
structure HeldOk (net : List Packet) (w : NodeT) (th : Thread) (l : RowLock) : Prop where
  op_eq : ∃ op, th.txn.cold[l.op]? = some op ∧ l = rowLock w th l.op op
  logged : l.op < th.log.length
  cleared : th.phase.cleared l.op = true →
    ∃ p ∈ net, p.msg.type = .tuplePutReq ∧ p.msg.att = l.txn ∧ p.msg.op = l.op

/-- What concerns one thread. -/
structure Own (c : Config) (s : System) (a : Ledger) (w : NodeT) : Prop where
  thread : ThreadOk c a w (s.threads w)
  held : ∀ l ∈ a.held, l.txn.worker = w → HeldOk s.net w (s.threads w) l
  msg : ∀ p ∈ s.net, p.msg.att.worker = w →
    ∃ op act, MsgAt c a s.openFutures w (s.threads w) p op act

/-- The rows that count are locked as the machine says, and have its values unless a thread of
another node holds the write lock. -/
structure RowsOk (c : Config) (rows : ℕ × DbKey → Row) (a : Ledger) : Prop where
  lock : ∀ k, (rows (c.owner k, k)).LockInv (modesOn a.held k)
  value : ∀ k, (∀ l ∈ a.held, l.item = k → l.excl = true → l.txn.worker.nid = c.owner k) →
    (rows (c.owner k, k)).tuple = a.store k

/-- What an operation has on the way. -/
def token (p : Packet) : Attempt × ℕ := (p.msg.att, p.msg.op)

/-- Whether a message releases a lock of a thread, or answers one that did. -/
def isPutOf (w : NodeT) (p : Packet) : Bool := p.msg.type.isPut && decide (p.msg.att.worker = w)

/-- At most one message for each operation, fresh message ids, and the right number of responses to
wait for. -/
structure NetOk (s : System) : Prop where
  nodup : (s.net.map token).Nodup
  futs : ∀ n id x, s.openFutures (n, id) = some x → id < s.nextId n
  puts : ∀ w, s.putResponses w = s.net.countP (isPutOf w)

/-- The system and the machine. -/
structure Coupled (c : Config) (store₀ : DbKey → BitVec 32) (s : System) (a : Ledger) : Prop where
  inv : TwoPhase.Inv store₀ a
  history : a.history = s.history
  rows : RowsOk c s.rows a
  net : NetOk s
  own : ∀ w, Own c s a w

/-! ### Frames -/

section Frame
variable {c : Config} {s s' : System} {a a' : Ledger} {w : NodeT} {th th' : Thread} {i : ℕ}
  {op : Op}
  {act : UndoAction} {l : RowLock} {p : Packet} {futs futs' : ℕ × ℕ → Option (ℕ × ℕ)}

/-- A change of the machine that means nothing to the lock `l`. -/
structure FrameAt (a a' : Ledger) (l : RowLock) : Prop where
  held : l ∈ a'.held ↔ l ∈ a.held
  store : l ∈ a.held → a'.store l.item = a.store l.item
  released : Released a.history l.txn → Released a'.history l.txn

theorem FrameAt.refl (a : Ledger) (l : RowLock) : FrameAt a a l := ⟨Iff.rfl, fun _ => rfl, id⟩

theorem Answer.transfer {mode : AccessMode} {m : TupleMsg} (h : Answer a l mode m)
    (hf : FrameAt a a' l) : Answer a' l mode m := by
  rcases h with ⟨hm, hnot⟩ | ⟨hm, hl, ht⟩
  · exact Or.inl ⟨hm, hf.held.not.mpr hnot⟩
  · exact Or.inr ⟨hm, hf.held.mpr hl, ht.trans (hf.store hl).symm⟩

theorem FutureOk.transfer {mode : AccessMode} {ph ph' : Phase} {f : TupleFuture}
    (h : FutureOk a l mode ph i f) (hf : FrameAt a a' l) (hph : Phase.Frame ph ph' i) :
    FutureOk a' l mode ph' i f := by
  cases h with
  | waiting hphase => exact .waiting (hph.await hphase)
  | answered hphase hnames hans => exact .answered (hph.await hphase) hnames (hans.transfer hf)
  | refused hphase hnot => exact .refused (hph.rolledBack hphase) (hf.held.not.mpr hnot)
  | granted hnames hmode hheld hdone =>
    refine .granted hnames hmode (fun hcl => ?_) fun hcl => ?_
    · obtain ⟨hl, ht⟩ := hheld (hph.cleared ▸ hcl)
      exact ⟨hf.held.mpr hl, ht.trans (hf.store hl).symm⟩
    · exact (hdone (hph.cleared ▸ hcl)).imp hf.held.mpr hf.released

theorem EntryOk.transfer (h : EntryOk c a w th i op act) (hf : FrameAt a a' (rowLock w th i op))
    (hseq : th'.seq = th.seq) (hph : Phase.Frame th.phase th'.phase i) :
    EntryOk c a' w th' i op act := by
  have hlock : rowLock w th' i op = rowLock w th i op := by rw [rowLock, hseq]; rfl
  refine ⟨h.index, h.mode, fun hlocal => ?_, fun hremote => ?_⟩
  · obtain ⟨htarget, htuple, hheld, hdone⟩ := h.ofLocal hlocal
    refine ⟨htarget, htuple, fun hcl => ?_, fun hcl => ?_⟩
    · exact hlock ▸ hf.held.mpr (hheld (hph.cleared ▸ hcl))
    · exact hseq ▸ hf.released (hdone (hph.cleared ▸ hcl))
  · obtain ⟨htarget, hfut⟩ := h.ofRemote hremote
    exact ⟨htarget, hlock ▸ hfut.transfer hf hph⟩

theorem MsgAt.transfer (h : MsgAt c a futs w th p op act)
    (hf : FrameAt a a' (rowLock w th p.msg.op op)) (hseq : th'.seq = th.seq)
    (htxn : th'.txn = th.txn) (hact : th'.log[p.msg.op]? = some act)
    (hawait : th.phase = .await p.msg.op → th'.phase = .await p.msg.op)
    (hcl : th.phase.cleared p.msg.op = true → th'.phase.cleared p.msg.op = true)
    (hfuts : futs (w.nid, p.msg.msgId) = some (w.tid, p.msg.op) →
      futs' (w.nid, p.msg.msgId) = some (w.tid, p.msg.op)) :
    MsgAt c a' futs' w th' p op act := by
  have hlock : rowLock w th' p.msg.op op = rowLock w th p.msg.op op := by rw [rowLock, hseq]; rfl
  refine ⟨hseq ▸ h.seq, htxn ▸ h.op_eq, hact, h.remote, h.rid, h.sender, fun ht => ?_, fun ht => ?_,
    fun ht => ?_, fun ht => ?_, fun ht => ?_, h.putRes⟩
  · obtain ⟨hphase, hpkt, htuple, hfut⟩ := h.waiting ht
    exact ⟨hawait hphase, hpkt, htuple, hfuts hfut⟩
  · exact ⟨hcl (h.releasing ht).1, (h.releasing ht).2⟩
  · obtain ⟨hdst, hmode, hnot⟩ := h.getReq ht
    exact ⟨hdst, hmode, hlock ▸ hf.held.not.mpr hnot⟩
  · exact ⟨(h.getRes ht).1, hlock ▸ (h.getRes ht).2.transfer hf⟩
  · obtain ⟨hdst, hmode, hl, htuple⟩ := h.putReq ht
    exact ⟨hdst, hmode, hlock ▸ hf.held.mpr hl, htuple.trans (hf.store hl).symm⟩

/-- A change of the machine that means nothing to a thread. -/
structure Frame (a a' : Ledger) (w : NodeT) : Prop where
  held : ∀ l : RowLock, l.txn.worker = w → (l ∈ a'.held ↔ l ∈ a.held)
  store : ∀ l ∈ a.held, l.txn.worker = w → a'.store l.item = a.store l.item
  events : ∀ e : Event Attempt DbKey (BitVec 32), e.txn.worker = w →
    (e ∈ a'.history ↔ e ∈ a.history)

namespace Frame

theorem refl (a : Ledger) (w : NodeT) : Frame a a w :=
  ⟨fun _ _ => Iff.rfl, fun _ _ _ => rfl, fun _ _ => Iff.rfl⟩

variable (hf : Frame a a' w) {t : Attempt} (ht : t.worker = w)
include hf ht

theorem released_iff : Released a'.history t ↔ Released a.history t :=
  exists_congr fun l => and_congr_left fun hl =>
    hf.events (.unlock l) (show l.txn.worker = w from hl ▸ ht)

theorem wrote_iff : Wrote a'.history t ↔ Wrote a.history t :=
  exists_congr fun l => exists_congr fun v => and_congr_left fun hl =>
    hf.events (.write l v) (show l.txn.worker = w from hl ▸ ht)

theorem committed_iff : Committed a'.history t ↔ Committed a.history t := hf.events (.commit t) ht

end Frame

theorem Frame.at (hf : Frame a a' w) (hl : l.txn.worker = w) : FrameAt a a' l :=
  ⟨hf.held l hl, fun h => hf.store l h hl, (hf.released_iff hl).mpr⟩

theorem ThreadOk.frame (h : ThreadOk c a w th) (hf : Frame a a' w) : ThreadOk c a' w th where
  placed := h.placed
  len := h.len
  entry i act hact := by
    obtain ⟨op, hop, hentry⟩ := h.entry i act hact
    exact ⟨op, hop, hentry.transfer (hf.at rfl) rfl (Phase.Frame.refl _ _)⟩
  growing hg := (hf.released_iff rfl).not.mpr (h.growing hg)
  clean hc := (hf.wrote_iff rfl).not.mpr (h.clean hc)
  committed hc := (hf.committed_iff rfl).mpr (h.committed hc)
  fresh e he hw := h.fresh e ((hf.events e hw).mp he) hw

/-- **The other threads do not notice.** -/
theorem Own.frame (h : Own c s a w) (hf : Frame a a' w) (hth : s'.threads w = s.threads w)
    (hnet : ∀ p : Packet, p.msg.att.worker = w → (p ∈ s'.net ↔ p ∈ s.net))
    (hfuts : ∀ id i, s.openFutures (w.nid, id) = some (w.tid, i) →
      s'.openFutures (w.nid, id) = some (w.tid, i)) : Own c s' a' w where
  thread := hth ▸ h.thread.frame hf
  held l hl hw := by
    have hok := h.held l ((hf.held l hw).mp hl) hw
    refine hth ▸ ⟨hok.op_eq, hok.logged, fun hcl => ?_⟩
    obtain ⟨p, hp, htype, hatt, hop⟩ := hok.cleared hcl
    exact ⟨p, (hnet p (hatt ▸ hw)).mpr hp, htype, hatt, hop⟩
  msg p hp hw := by
    obtain ⟨op, act, hmsg⟩ := h.msg p ((hnet p hw).mp hp) hw
    exact ⟨op, act, hth ▸ hmsg.transfer (hf.at rfl) rfl rfl hmsg.act_eq id id (hfuts _ _)⟩

theorem mem_concat_iff {e e₀ : Event Attempt DbKey (BitVec 32)}
    {h : List (Event Attempt DbKey (BitVec 32))} (hne : e₀.txn.worker ≠ e.txn.worker) :
    e ∈ h ++ [e₀] ↔ e ∈ h := by
  rw [List.mem_append, or_iff_left]
  intro he
  exact hne (List.mem_singleton.mp he ▸ rfl)

theorem frame_lock (hw : l.txn.worker ≠ w) : Frame a (a.lock l) w where
  held _ hl' := List.mem_cons.trans (or_iff_right fun heq => hw (heq ▸ hl'))
  store _ _ _ := rfl
  events _ he := mem_concat_iff (he ▸ hw)

theorem frame_read {v : BitVec 32} (hw : l.txn.worker ≠ w) : Frame a (a.read l v) w where
  held _ _ := Iff.rfl
  store _ _ _ := rfl
  events _ he := mem_concat_iff (he ▸ hw)

theorem frame_commit {t : Attempt} (hw : t.worker ≠ w) : Frame a (a.commit t) w where
  held _ _ := Iff.rfl
  store _ _ _ := rfl
  events _ he := mem_concat_iff (he ▸ hw)

/-- A write is invisible to the others because only the writer holds the item. -/
theorem frame_write {store₀ : DbKey → BitVec 32} {v : BitVec 32} (hi : TwoPhase.Inv store₀ a)
    (hl : l ∈ a.held) (hex : l.excl = true) (hw : l.txn.worker ≠ w) : Frame a (a.write l v) w where
  held _ _ := Iff.rfl
  store l' hl' hw' := by
    have hne : l' ≠ l := fun heq => hw (heq ▸ hw')
    refine Function.update_of_ne (fun hitem => ?_) _ _
    exact Bool.noConfusion (hex.symm.trans (hi.compat l' hl' l hl hne hitem).2)
  events _ he := mem_concat_iff (he ▸ hw)

theorem frame_unlock {order : List Attempt} (hw : l.txn.worker ≠ w) :
    Frame a (a.unlock l order) w where
  held _ hl' := List.mem_erase_of_ne fun heq => hw (heq ▸ hl')
  store _ _ _ := rfl
  events _ he := mem_concat_iff (he ▸ hw)

end Frame

/-! ### Rows -/

section Rows
variable {c : Config} {rows : ℕ × DbKey → Row} {a : Ledger} {l : RowLock} {row : Row} {id : TxnId}
  {k : DbKey}

theorem lockMode_ne_invalid (l : RowLock) : lockMode l ≠ .invalid := by
  unfold lockMode
  split_ifs <;> nofun

theorem lockMode_rowLock {w : NodeT} {th : Thread} {i : ℕ} {op : Op} (hop : op.mode ≠ .invalid) :
    lockMode (rowLock w th i op) = op.mode := by
  cases hm : op.mode <;> simp_all [lockMode, rowLock]

theorem modesOn_cons_self (l : RowLock) (held : List RowLock) :
    modesOn (l :: held) l.item = lockMode l :: modesOn held l.item := by
  simp [modesOn]

theorem modesOn_cons_of_ne {held : List RowLock} (hne : k ≠ l.item) :
    modesOn (l :: held) k = modesOn held k := by
  simp [modesOn, Ne.symm hne]

theorem modesOn_perm {held held' : List RowLock} (hp : held.Perm held') (k : DbKey) :
    (modesOn held k).Perm (modesOn held' k) :=
  (hp.filter _).map _

theorem mem_modesOn {held : List RowLock} (hl : l ∈ held) : lockMode l ∈ modesOn held l.item :=
  List.mem_map_of_mem (List.mem_filter.mpr ⟨hl, by simp⟩)

/-- The row of another key is another row. -/
theorem update_row_of_ne {k' : DbKey} (hne : k ≠ k') :
    Function.update rows (c.owner k', k') row (c.owner k, k) = rows (c.owner k, k) :=
  Function.update_of_ne (fun heq => hne (Prod.mk.inj heq).2) _ _

theorem RowsOk.grant (h : RowsOk c rows a) (l : RowLock)
    (hacq : (rows (c.owner l.item, l.item)).acquire (lockMode l) id = some (some row)) :
    RowsOk c (Function.update rows (c.owner l.item, l.item) row) (a.lock l) := by
  refine ⟨fun k => ?_, fun k hk => ?_⟩
  · by_cases heq : k = l.item
    · subst heq
      rw [Function.update_self, State.lock, modesOn_cons_self]
      exact (h.lock l.item).acquire (lockMode_ne_invalid l) hacq
    · rw [update_row_of_ne heq, State.lock, modesOn_cons_of_ne heq]
      exact h.lock k
  · have hold := h.value k fun l' hl' => hk l' (List.mem_cons_of_mem _ hl')
    by_cases heq : k = l.item
    · subst heq
      obtain ⟨-, -, rfl⟩ := Row.acquire_eq_some_some.mp hacq
      rw [Function.update_self]
      exact hold
    · rw [update_row_of_ne heq]
      exact hold

/-- A lock is granted only if it is compatible with those that are held. -/
theorem RowsOk.compatible (h : RowsOk c rows a) (l : RowLock)
    (hacq : (rows (c.owner l.item, l.item)).acquire (lockMode l) id = some (some row)) :
    ∀ l' ∈ a.held, Compatible l l' := by
  intro l' hl' hitem
  obtain ⟨-, hcompat, -⟩ := Row.acquire_eq_some_some.mp hacq
  have hmem : lockMode l' ∈ modesOn a.held l.item := hitem ▸ mem_modesOn hl'
  rcases ((h.lock l.item).isCompatible_iff (lockMode_ne_invalid l)).mp
    hcompat with hnil | ⟨hr, hall⟩
  · rw [hnil] at hmem
    cases hmem
  · have hr' := hall _ hmem
    unfold lockMode at hr hr'
    exact ⟨by simpa using hr, by simpa using hr'⟩

/-- A row nobody has locked for writing has the value of the machine. -/
theorem RowsOk.tuple_eq (h : RowsOk c rows a) (hno : ∀ l ∈ a.held, l.item = k → l.excl = false) :
    (rows (c.owner k, k)).tuple = a.store k :=
  h.value k fun l hl hitem hex => Bool.noConfusion (hex.symm.trans (hno l hl hitem))

/-- The modes on a key with a lock on it, that one first. -/
theorem RowsOk.lockInv_cons (h : RowsOk c rows a) (hl : l ∈ a.held) :
    (rows (c.owner l.item, l.item)).LockInv (lockMode l :: modesOn (a.held.erase l) l.item) := by
  rw [← modesOn_cons_self]
  exact (h.lock l.item).perm (modesOn_perm (List.perm_cons_erase hl) _)

/-- A release takes the mode of the lock away.  The value `v` left in the row must be the one of the
machine if a thread of another node was the writer. -/
theorem RowsOk.unlock (h : RowsOk c rows a) (l : RowLock) (hl : l ∈ a.held) (order : List Attempt)
    (id : TxnId) (v : BitVec 32)
    (hv : v = a.store l.item ∨ v = (rows (c.owner l.item, l.item)).tuple ∧
      (l.excl = true → l.txn.worker.nid = c.owner l.item)) :
    RowsOk c (Function.update rows (c.owner l.item, l.item)
      (Row.localUnlock { rows (c.owner l.item, l.item) with tuple := v } (lockMode l) id).2)
      (a.unlock l order) := by
  have hcons : Row.LockInv { rows (c.owner l.item, l.item) with tuple := v }
      (lockMode l :: modesOn (a.held.erase l) l.item) := (h.lockInv_cons hl).congr rfl rfl
  obtain ⟨-, hlock, -, htuple⟩ := hcons.localUnlock id
  refine ⟨fun k => ?_, fun k hk => ?_⟩
  · by_cases heq : k = l.item
    · subst heq
      rw [Function.update_self]
      exact hlock
    · rw [update_row_of_ne heq]
      have hp := modesOn_perm (List.perm_cons_erase hl) k
      rw [modesOn_cons_of_ne heq] at hp
      exact (h.lock k).perm hp
  · by_cases heq : k = l.item
    · subst heq
      rw [Function.update_self]
      refine htuple.trans ?_
      rcases hv with hv | ⟨hv, hown⟩
      · exact hv
      · refine hv.trans (h.value _ fun l' hl' hitem hex => ?_)
        by_cases hll : l' = l
        · subst hll
          exact hown hex
        · exact hk l' ((List.mem_erase_of_ne hll).mpr hl') hitem hex
    · rw [update_row_of_ne heq]
      refine h.value k fun l' hl' hitem hex => ?_
      have hll : l' ≠ l := fun h => heq (hitem.symm.trans (congrArg Lock.item h))
      exact hk l' ((List.mem_erase_of_ne hll).mpr hl') hitem hex

/-- A write in place. -/
theorem RowsOk.write {v : BitVec 32} (h : RowsOk c rows a) (l : RowLock) :
    RowsOk c (Function.update rows (c.owner l.item, l.item)
      { rows (c.owner l.item, l.item) with tuple := v }) (a.write l v) := by
  refine ⟨fun k => ?_, fun k hk => ?_⟩
  · by_cases heq : k = l.item
    · subst heq
      rw [Function.update_self]
      exact (h.lock l.item).congr rfl rfl
    · rw [update_row_of_ne heq]
      exact h.lock k
  · show _ = Function.update a.store l.item v k
    by_cases heq : k = l.item
    · subst heq
      rw [Function.update_self, Function.update_self]
    · rw [update_row_of_ne heq, Function.update_of_ne heq]
      exact h.value k hk

/-- A write into a copy. -/
theorem RowsOk.writeCopy {v : BitVec 32} (h : RowsOk c rows a) (hl : l ∈ a.held)
    (hex : l.excl = true) (hremote : l.txn.worker.nid ≠ c.owner l.item) :
    RowsOk c rows (a.write l v) := by
  refine ⟨h.lock, fun k hk => ?_⟩
  have hne : k ≠ l.item := by
    rintro rfl
    exact hremote (hk l hl rfl hex)
  show _ = Function.update a.store l.item v k
  rw [Function.update_of_ne hne]
  exact h.value k hk

end Rows

/-! ### Messages -/

section Net
variable {s : System} {p : Packet} {m : TupleMsg} {dst : ℕ} {w : NodeT}

theorem isPutOf_iff : isPutOf w p = true ↔ p.msg.type.isPut = true ∧ p.msg.att.worker = w := by
  rw [isPutOf, Bool.and_eq_true, decide_eq_true_iff]

/-- A message that is erased was the only one of its operation. -/
theorem NetOk.token_not_mem_erase (h : NetOk s) (hp : p ∈ s.net) :
    token p ∉ (s.net.erase p).map token := by
  have hnd : ((p :: s.net.erase p).map token).Nodup :=
    ((List.perm_cons_erase hp).map token).nodup_iff.mp h.nodup
  exact (List.nodup_cons.mp hnd).1

/-- Once all responses are there, no message releases a lock of the thread. -/
theorem NetOk.not_isPut (h : NetOk s) (hputs : s.putResponses w = 0) (hp : p ∈ s.net)
    (hw : p.msg.att.worker = w) : p.msg.type.isPut = false := by
  rw [h.puts] at hputs
  by_contra hput
  exact List.countP_eq_zero.mp hputs p hp (isPutOf_iff.mpr ⟨Bool.not_eq_false _ ▸ hput, hw⟩)

theorem NetOk.nodup_erase (h : NetOk s) (p : Packet) : ((s.net.erase p).map token).Nodup :=
  h.nodup.sublist (List.erase_sublist.map token)

theorem countP_erase (hp : p ∈ s.net) (w : NodeT) :
    s.net.countP (isPutOf w) =
      (s.net.erase p).countP (isPutOf w) + if isPutOf w p = true then 1 else 0 := by
  rw [(List.perm_cons_erase hp).countP_eq, List.countP_cons]

/-- One more response to wait for. -/
theorem puts_cons {net : List Packet} {f : NodeT → ℕ} (hf : ∀ w, f w = net.countP (isPutOf w))
    (hput : p.msg.type.isPut = true) (hw : p.msg.att.worker = w) (w' : NodeT) :
    Function.update f w (f w + 1) w' = (p :: net).countP (isPutOf w') := by
  rw [List.countP_cons]
  by_cases heq : w' = w
  · subst heq
    rw [Function.update_self, hf, if_pos (isPutOf_iff.mpr ⟨hput, hw⟩)]
  · have hne : ¬isPutOf w' p = true := fun h => heq ((isPutOf_iff.mp h).2.symm.trans hw)
    rw [Function.update_of_ne heq, hf, if_neg hne, Nat.add_zero]

/-- A handler answers: the response takes the place of the request. -/
theorem NetOk.reply (h : NetOk s) (hp : p ∈ s.net) (hatt : m.att = p.msg.att)
    (hop : m.op = p.msg.op) (htype : m.type.isPut = p.msg.type.isPut) :
    NetOk ({ s with net := s.net.erase p }.send dst m) := by
  have htoken : token ⟨dst, m⟩ = token p := by rw [token, token, hatt, hop]
  refine ⟨?_, h.futs, fun w => ?_⟩
  · show ((⟨dst, m⟩ :: s.net.erase p : List Packet).map token).Nodup
    rw [List.map_cons, List.nodup_cons, htoken]
    exact ⟨h.token_not_mem_erase hp, h.nodup_erase p⟩
  · have hput : isPutOf w ⟨dst, m⟩ = isPutOf w p := by rw [isPutOf, isPutOf, hatt, htype]
    show s.putResponses w = (⟨dst, m⟩ :: s.net.erase p : List Packet).countP (isPutOf w)
    rw [h.puts, countP_erase hp, List.countP_cons, hput]

end Net

/-! ### The thread that moves -/

section Own
variable {c : Config} {s s' : System} {a a' : Ledger} {w : NodeT} {th th' : Thread} {l l' : RowLock}
  {store₀ : DbKey → BitVec 32}

theorem own_of (hth : s'.threads w = th) (thread : ThreadOk c a w th)
    (held : ∀ l ∈ a.held, l.txn.worker = w → HeldOk s'.net w th l)
    (msg : ∀ p ∈ s'.net, p.msg.att.worker = w →
      ∃ op act, MsgAt c a s'.openFutures w th p op act) : Own c s' a w := by
  subst hth
  exact ⟨thread, held, msg⟩

theorem frameAt_lock (hne : l' ≠ l) : FrameAt a (a.lock l) l' where
  held := List.mem_cons.trans (or_iff_right hne)
  store _ := rfl
  released h := released_concat.mpr (Or.inl h)

theorem frameAt_read (l l' : RowLock) (v : BitVec 32) : FrameAt a (a.read l v) l' where
  held := Iff.rfl
  store _ := rfl
  released h := released_concat.mpr (Or.inl h)

theorem frameAt_commit (t : Attempt) (l' : RowLock) : FrameAt a (a.commit t) l' where
  held := Iff.rfl
  store _ := rfl
  released h := released_concat.mpr (Or.inl h)

theorem frameAt_write {v : BitVec 32} (hi : TwoPhase.Inv store₀ a) (hl : l ∈ a.held)
    (hex : l.excl = true) (hne : l' ≠ l) : FrameAt a (a.write l v) l' where
  held := Iff.rfl
  store hl' := Function.update_of_ne
    (fun heq => Bool.noConfusion (hex.symm.trans (hi.compat l' hl' l hl hne heq).2)) _ _
  released h := released_concat.mpr (Or.inl h)

theorem frameAt_unlock {order : List Attempt} (hne : l' ≠ l) : FrameAt a (a.unlock l order) l' where
  held := List.mem_erase_of_ne hne
  store _ := rfl
  released h := released_concat.mpr (Or.inl h)

/-- What `get` returns for a row of another node. -/
theorem FutureOk.get {mode : AccessMode} {ph : Phase} {i : ℕ} {f f' : TupleFuture}
    (h : FutureOk a l mode ph i f) (hmode : mode ≠ .invalid) (hget : f.get = some f') :
    f'.tuple = .exception ∧ l ∉ a.held ∧ (ph.rolledBack = true ∨ ph = .await i) ∨
    ∃ res, f' = ⟨some res, .packet, f'.lastAcq⟩ ∧ Names res l ∧ res.mode = mode ∧
      (ph.cleared i = false → l ∈ a.held ∧ res.tuple = a.store l.item) ∧
      (ph.cleared i = true → l ∈ a.held ∨ Released a.history l.txn) := by
  cases h with
  | waiting hphase => cases hget
  | @answered res acq hphase hnames hans =>
    have hf : (if res.mode = .invalid then (⟨some res, .exception, acq⟩ : TupleFuture)
        else ⟨some res, .packet, TxnId.ofPacked res.pack⟩) = f' := Option.some.inj hget
    rcases hans with ⟨hm, hnot⟩ | ⟨hm, hl, ht⟩
    · rw [if_pos hm] at hf
      exact Or.inl ⟨hf ▸ rfl, hnot, Or.inr hphase⟩
    · rw [if_neg (hm ▸ hmode)] at hf
      subst hf
      refine Or.inr ⟨res, rfl, hnames, hm, fun _ => ⟨hl, ht⟩, fun hcl => ?_⟩
      rw [hphase] at hcl
      cases hcl
  | refused hphase hnot =>
    obtain rfl := Option.some.inj hget
    exact Or.inl ⟨rfl, hnot, Or.inl hphase⟩
  | @granted res acq hnames hm hheld hdone =>
    obtain rfl := Option.some.inj hget
    exact Or.inr ⟨res, rfl, hnames, hm, hheld, hdone⟩

theorem rowLock_ne {i j : ℕ} (hne : i ≠ j) (op op' : Op) :
    rowLock w th i op ≠ rowLock w th' j op' :=
  fun heq => hne (congrArg Lock.op heq)

/-- A thread changes entry `i` of its log and its phase; the other entries must not notice. -/
theorem ThreadOk.step (h : ThreadOk c a w th) (hseq : th'.seq = th.seq) (htxn : th'.txn = th.txn)
    (i : ℕ) (hlog : ∀ j, j ≠ i → th'.log[j]? = th.log[j]?)
    (hframe : ∀ j op, j ≠ i → FrameAt a a' (rowLock w th j op))
    (hph : ∀ j, j ≠ i → j < th.log.length → Phase.Frame th.phase th'.phase j)
    (hentry : ∀ act, th'.log[i]? = some act →
      ∃ op, th.txn.cold[i]? = some op ∧ EntryOk c a' w th' i op act)
    (hlen : ∀ m, th'.phase.logLength th.txn.cold.length = some m → th'.log.length = m)
    (hgrow : th'.phase.growing = true → ¬Released a'.history ⟨w, th.seq⟩)
    (hclean : th'.phase.clean = true → ¬Wrote a'.history ⟨w, th.seq⟩)
    (hcom : th'.phase.committed = true → Committed a'.history ⟨w, th.seq⟩)
    (hfresh : ∀ e ∈ a'.history, e ∈ a.history ∨ e.txn.seq = th.seq) : ThreadOk c a' w th' where
  placed := htxn ▸ h.placed
  len := htxn ▸ hlen
  entry j act hact := by
    rw [htxn]
    by_cases hj : j = i
    · subst hj
      exact hentry act hact
    · rw [hlog j hj] at hact
      obtain ⟨op, hop, hok⟩ := h.entry j act hact
      have hlt : j < th.log.length := (List.getElem?_eq_some_iff.mp hact).1
      exact ⟨op, hop, hok.transfer (hframe j op hj) hseq (hph j hj hlt)⟩
  growing hg := hseq ▸ hgrow hg
  clean hc := hseq ▸ hclean hc
  committed hc := hseq ▸ hcom hc
  fresh e he hw := by
    rcases hfresh e he with hold | heq
    · exact hseq ▸ h.fresh e hold hw
    · exact Nat.le_of_eq (heq.trans hseq.symm)

theorem getElem?_concat_of_ne {α : Type*} {l : List α} {x : α} {j : ℕ} (hj : j ≠ l.length) :
    (l ++ [x])[j]? = l[j]? := by
  rcases Nat.lt_or_gt_of_ne hj with hlt | hgt
  · exact List.getElem?_append_left hlt
  · rw [List.getElem?_eq_none (Nat.le_of_lt hgt), List.getElem?_eq_none]
    rw [List.length_append]
    exact hgt

theorem mem_or_seq_of_mem_concat {e e₀ : Event Attempt DbKey (BitVec 32)}
    {h : List (Event Attempt DbKey (BitVec 32))} {n : ℕ} (he₀ : e₀.txn.seq = n)
    (he : e ∈ h ++ [e₀]) : e ∈ h ∨ e.txn.seq = n := by
  rcases List.mem_append.mp he with he | he
  · exact Or.inl he
  · obtain rfl := List.mem_singleton.mp he
    exact Or.inr he₀

theorem ThreadOk.log_length_le (h : ThreadOk c a w th) : th.log.length ≤ th.txn.cold.length := by
  by_contra hlt
  rw [Nat.not_le] at hlt
  obtain ⟨op, hop, -⟩ := h.entry _ _ (List.getElem?_eq_getElem hlt)
  rw [List.getElem?_eq_none (Nat.le_refl _)] at hop
  cases hop

/-- A thread that releases its locks has committed or has written nothing. -/
theorem ThreadOk.may_release (h : ThreadOk c a w th) (hph : th.phase.clean = true ∨
    th.phase.committed = true) :
    Committed a.history ⟨w, th.seq⟩ ∨ ¬Wrote a.history ⟨w, th.seq⟩ :=
  hph.symm.imp h.committed h.clean

/-- The owner of a key and the location of an operation. -/
theorem ThreadOk.target_eq (h : ThreadOk c a w th) {i : ℕ} {op : Op}
    (hop : th.txn.cold[i]? = some op) : op.locInfo.target = c.owner op.id := by
  rw [(h.placed op (List.mem_of_getElem? hop)).2, Config.owner]
  rfl

theorem ThreadOk.isLocal_iff (h : ThreadOk c a w th) {i : ℕ} {op : Op}
    (hop : th.txn.cold[i]? = some op) : op.locInfo.isLocal = true ↔ c.owner op.id = w.nid := by
  rw [(h.placed op (List.mem_of_getElem? hop)).2, Config.owner]
  exact decide_eq_true_iff

/-- A thread that neither waits nor releases has no message on the way. -/
theorem Own.no_msg (h : Own c s a w) (hgrow : (s.threads w).phase.growing = true)
    (hawait : ∀ i, (s.threads w).phase ≠ .await i) : ∀ p ∈ s.net, p.msg.att.worker ≠ w := by
  intro p hp hw
  obtain ⟨op, act, hmsg⟩ := h.msg p hp hw
  cases hput : p.msg.type.isPut with
  | false => exact hawait _ (hmsg.waiting hput).1
  | true =>
    exact Bool.noConfusion ((Phase.cleared_of_growing hgrow _).symm.trans (hmsg.releasing hput).1)

/-- A thread outside a call has no message on the way. -/
theorem Own.no_msg_of_idle (h : Own c s a w) (hidle : (s.threads w).phase = .idle) :
    ∀ p ∈ s.net, p.msg.att.worker ≠ w := by
  intro p hp hw
  obtain ⟨op, act, hmsg⟩ := h.msg p hp hw
  have hlt := (List.getElem?_eq_some_iff.mp hmsg.act_eq).1
  rw [h.thread.len 0 (by rw [hidle]; rfl)] at hlt
  exact Nat.not_lt_zero _ hlt

/-- A thread outside a call holds no lock. -/
theorem Own.not_held_of_idle (h : Own c s a w) (hidle : (s.threads w).phase = .idle)
    (hl : l ∈ a.held) : l.txn.worker ≠ w := by
  intro hw
  have hlt := (h.held l hl hw).logged
  rw [h.thread.len 0 (by rw [hidle]; rfl)] at hlt
  exact Nat.not_lt_zero _ hlt

/-- Once all responses are there, a lock whose release has begun is not held. -/
theorem Own.not_held_of_cleared (h : Own c s a w) (hnet : NetOk s) (hputs : s.putResponses w = 0)
    (hl : l ∈ a.held) (hw : l.txn.worker = w) : (s.threads w).phase.cleared l.op = false := by
  by_contra hcl
  obtain ⟨p, hp, htype, hatt, -⟩ := (h.held l hl hw).cleared (Bool.not_eq_false _ ▸ hcl)
  have hput := hnet.not_isPut hputs hp (hatt ▸ hw)
  rw [htype] at hput
  cases hput

theorem HeldOk.mono {net net' : List Packet} (h : HeldOk net w th l) (hseq : th'.seq = th.seq)
    (htxn : th'.txn = th.txn) (hlen : th.log.length ≤ th'.log.length)
    (hcl : th'.phase.cleared l.op = true → th.phase.cleared l.op = true)
    (hnet : ∀ p ∈ net, p.msg.type = .tuplePutReq → p.msg.op = l.op → p ∈ net') :
    HeldOk net' w th' l := by
  refine ⟨?_, Nat.lt_of_lt_of_le h.logged hlen, fun hcl' => ?_⟩
  · obtain ⟨op, hop, hl⟩ := h.op_eq
    have hlock : rowLock w th' l.op op = rowLock w th l.op op := by rw [rowLock, hseq]; rfl
    exact ⟨op, htxn ▸ hop, hl.trans hlock.symm⟩
  · obtain ⟨p, hp, htype, hatt, hop⟩ := h.cleared (hcl hcl')
    exact ⟨p, hnet p hp htype hop, htype, hatt, hop⟩

end Own

/-! ### Moves -/

section Moves
variable {c : Config} {s s' : System} {a a' : Ledger} {w : NodeT} {store₀ : DbKey → BitVec 32}

/-- What a move by, or for, a thread has to show. -/
theorem Coupled.move (h : Coupled c store₀ s a) (w : NodeT) (hinv : TwoPhase.Inv store₀ a')
    (hhist : a'.history = s'.history) (hrows : RowsOk c s'.rows a') (hnet : NetOk s')
    (hown : Own c s' a' w) (hframe : ∀ w', w ≠ w' → Frame a a' w')
    (hthreads : ∀ w', w ≠ w' → s'.threads w' = s.threads w')
    (hmsgs : ∀ p : Packet, w ≠ p.msg.att.worker → (p ∈ s'.net ↔ p ∈ s.net))
    (hfuts : ∀ w' : NodeT, w ≠ w' → ∀ id i, s.openFutures (w'.nid, id) = some (w'.tid, i) →
      s'.openFutures (w'.nid, id) = some (w'.tid, i)) : Coupled c store₀ s' a' := by
  refine ⟨hinv, hhist, hrows, hnet, fun w' => ?_⟩
  by_cases hw : w = w'
  · exact hw ▸ hown
  · exact (h.own w').frame (hframe w' hw) (hthreads w' hw) (fun p hp => hmsgs p (hp ▸ hw))
      (hfuts w' hw)

/-- Nothing the invariant speaks about has changed. -/
theorem Coupled.congr (h : Coupled c store₀ s a) (hrows : s'.rows = s.rows)
    (hthreads : s'.threads = s.threads) (hnet : s'.net = s.net)
    (hfuts : s'.openFutures = s.openFutures) (hid : s'.nextId = s.nextId)
    (hputs : s'.putResponses = s.putResponses) (hhist : s'.history = s.history) :
    Coupled c store₀ s' a := by
  refine ⟨h.inv, h.history.trans hhist.symm, hrows ▸ h.rows,
    ⟨hnet ▸ h.net.nodup, hfuts ▸ hid ▸ h.net.futs, hputs ▸ hnet ▸ h.net.puts⟩, fun w => ?_⟩
  exact (h.own w).frame (Frame.refl a w) (by rw [hthreads]) (fun p _ => by rw [hnet])
    (by rw [hfuts]; exact fun _ _ => id)

/-- Only the thread has changed. -/
theorem Coupled.setThread (h : Coupled c store₀ s a) {th : Thread} (hth : ThreadOk c a w th)
    (hheld : ∀ l ∈ a.held, l.txn.worker = w → HeldOk s.net w th l)
    (hmsg : ∀ p ∈ s.net, p.msg.att.worker = w → ∃ op act, MsgAt c a s.openFutures w th p op act) :
    Coupled c store₀ (s.setThread w th) a := by
  have hown : Own c (s.setThread w th) a w := own_of (Function.update_self _ _ _) hth hheld hmsg
  exact h.move w h.inv h.history h.rows ⟨h.net.nodup, h.net.futs, h.net.puts⟩ hown
    (fun w' _ => Frame.refl a w') (fun w' hw => Function.update_of_ne (Ne.symm hw) _ _)
    (fun _ _ => Iff.rfl) (fun _ _ _ _ => id)

/-- Only the phase has changed, and no entry of the log notices. -/
theorem Coupled.setPhase (h : Coupled c store₀ s a) {ph : Phase}
    (hframe : ∀ i < (s.threads w).log.length, Phase.Frame (s.threads w).phase ph i)
    (hlen : ∀ m, ph.logLength (s.threads w).txn.cold.length = some m →
      (s.threads w).log.length = m)
    (hgrow : ph.growing = true → ¬Released a.history ⟨w, (s.threads w).seq⟩)
    (hclean : ph.clean = true → ¬Wrote a.history ⟨w, (s.threads w).seq⟩)
    (hcom : ph.committed = true → Committed a.history ⟨w, (s.threads w).seq⟩) :
    Coupled c store₀ (s.setPhase w ph) a := by
  have ho := h.own w
  refine h.setThread ?_ (fun l hl hw => ?_) fun p hp hw => ?_
  · refine ho.thread.step rfl rfl (s.threads w).log.length (fun _ _ => rfl)
      (fun _ _ _ => FrameAt.refl _ _) (fun j _ hj => hframe j hj) (fun act hact => ?_) hlen hgrow
      hclean hcom fun e he => Or.inl he
    rw [List.getElem?_eq_none (Nat.le_refl _)] at hact
    cases hact
  · have hok := ho.held l hl hw
    exact hok.mono rfl rfl (Nat.le_refl _) (fun hcl => (hframe _ hok.logged).cleared ▸ hcl)
      fun p hp _ _ => hp
  · obtain ⟨op, act, hmsg⟩ := ho.msg p hp hw
    have hf := hframe _ (List.getElem?_eq_some_iff.mp hmsg.act_eq).1
    exact ⟨op, act, hmsg.transfer (FrameAt.refl _ _) rfl rfl hmsg.act_eq hf.await
      (fun hcl => hf.cleared ▸ hcl) id⟩

end Moves

end System

end P4db
