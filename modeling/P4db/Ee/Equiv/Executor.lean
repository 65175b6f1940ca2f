import Mathlib.Data.List.TakeWhile
import P4db.Ee.Equiv.Row
import P4db.Ee.Executor

/-!
# What a step of the executor can do

`Move` lists the changes that steps make to the system, with what is known when they are made, and
`move_of_exec` says that there are no others.  `Failure` and `failure_of_exec` are the same for the
checks that can fail.  Invariants are proved by going through the moves; the functions of the
executor are not unfolded again.
-/

namespace P4db

theorem mode_ne_invalid_of_mem_cold {txn : Txn} {op : Op} (h : op ∈ txn.cold) :
    op.mode ≠ .invalid := by
  have := List.mem_takeWhile_imp h
  simpa using this

theorem mode_ne_invalid_of_cold {txn : Txn} {op : Op} {i : ℕ} (h : txn.cold[i]? = some op) :
    op.mode ≠ .invalid :=
  mode_ne_invalid_of_mem_cold (List.mem_of_getElem? h)

namespace System

variable {c : Config} {s s' : System} {w : NodeT} {early : Bool}

/-- The lock of an operation of the call a thread is in. -/
def rowLock (w : NodeT) (th : Thread) (i : ℕ) (op : Op) : RowLock :=
  ⟨⟨w, th.seq⟩, i, op.id, decide (op.mode = .write)⟩

/-- The identifier of a call of `my_execute` is exact, the one of a call of `execute` is not
valid. -/
def IdOk (w : NodeT) (txn : Txn) : Option ℕ → Prop
  | some mb => 0 < mb ∧ txn.id.valid = true ∧ txn.id.nodeId.toNat = w.nid ∧
      txn.id.miniBatchId.toNat = mb
  | none => txn.id.valid = false

/-- The log entry of a lock on a row of the own node. -/
def localEntry (op : Op) (seen : TxnId) : UndoAction := ⟨none, op.id, op.mode, ⟨none, .row, seen⟩⟩

/-- The log entry of a lock that is asked for. -/
def remoteEntry (op : Op) : UndoAction := ⟨some op.locInfo.target, op.id, op.mode, .new⟩

/-- A thread after it has written its operation `i`, with the new future in its log. -/
def accessed (th : Thread) (i : ℕ) (act : UndoAction) (f : TupleFuture) : Thread :=
  { th with phase := .access (i + 1), log := th.log.set i { act with future := stamp th f } }

/-- The changes steps make. -/
inductive Move (c : Config) (s : System) : Action → System → Prop
  | enter {w txn mb id} (hphase : (s.threads w).phase = .idle) (hplaced : Placed c w.nid txn)
      (hid : IdOk w { txn with id := id } mb) :
      Move c s (.start w txn mb) (s.enter w { txn with id := id } mb)
  | endAcquire {w i early} (hphase : (s.threads w).phase = .acquire i)
      (hop : (s.threads w).txn.cold[i]? = none) :
      Move c s (.thread w early) (s.setPhase w (.access 0))
  | refuse {w i early} (hphase : (s.threads w).phase = .acquire i) :
      Move c s (.thread w early) (s.setPhase w (.clear .rollback 0))
  | lockLocal {w i op row early} (hphase : (s.threads w).phase = .acquire i)
      (hop : (s.threads w).txn.cold[i]? = some op) (hlocal : op.locInfo.isLocal = true)
      (hacq : (s.rows (w.nid, op.id)).acquire op.mode (s.threads w).txn.id = some (some row)) :
      Move c s (.thread w early) (((s.setRow w.nid op.id row).setThread w
        { s.threads w with
          phase := .acquire (i + 1)
          log := (s.threads w).log ++
            [localEntry op (s.rows (w.nid, op.id)).lastAcq] }).record
        (.lock (rowLock w (s.threads w) i op)))
  | request {w i op early} (hphase : (s.threads w).phase = .acquire i)
      (hop : (s.threads w).txn.cold[i]? = some op) (hremote : op.locInfo.isLocal = false)
      (hnew : s.openFutures (w.nid, s.nextId w.nid) = none) :
      Move c s (.thread w early) (({ s with
        nextId := Function.update s.nextId w.nid (s.nextId w.nid + 1)
        openFutures := Function.update s.openFutures (w.nid, s.nextId w.nid)
          (some (w.tid, i)) }.setThread w
        { s.threads w with
          phase := .await i
          log := (s.threads w).log ++ [remoteEntry op] }).send
        op.locInfo.target ⟨.tupleGetReq, ⟨w.nid, 0⟩, s.nextId w.nid, op.id, op.mode,
          (s.threads w).txn.id.getPacked, 0, s.attempt w, i⟩)
  | awaitRefused {w i act f early} (hphase : (s.threads w).phase = .await i)
      (hact : (s.threads w).log[i]? = some act) (hget : act.future.get = some f)
      (hf : f.tuple = .exception) :
      Move c s (.thread w early) (s.setThread w
        { s.threads w with
          phase := .clear .rollback 0, log := (s.threads w).log.set i { act with future := f } })
  | awaitGranted {w i act f early} (hphase : (s.threads w).phase = .await i)
      (hact : (s.threads w).log[i]? = some act) (hget : act.future.get = some f)
      (hf : f.tuple ≠ .exception) :
      Move c s (.thread w early) (s.setThread w
        { s.threads w with
          phase := .acquire (i + 1), log := (s.threads w).log.set i { act with future := f } })
  | toAlloc {w i early} (hphase : (s.threads w).phase = .access i)
      (hop : (s.threads w).txn.cold[i]? = none) (hmb : (s.threads w).miniBatchNum ≠ none) :
      Move c s (.thread w early) (s.setPhase w .alloc)
  | commit {w i early} (hphase : (s.threads w).phase = .access i)
      (hop : (s.threads w).txn.cold[i]? = none) (hmb : (s.threads w).miniBatchNum = none) :
      Move c s (.thread w early) ((s.setPhase w (.clear .commit 0)).record (.commit (s.attempt w)))
  | writeRow {w i op act f early} (hphase : (s.threads w).phase = .access i)
      (hop : (s.threads w).txn.cold[i]? = some op) (hact : (s.threads w).log[i]? = some act)
      (hget : act.future.get = some f) (hf : f.tuple = .row) (hmode : op.mode = .write) :
      Move c s (.thread w early)
        (((s.setRow w.nid op.id { s.rows (w.nid, op.id) with tuple := op.value }).setThread w
          (accessed (s.threads w) i act f)).record (.write (rowLock w (s.threads w) i op) op.value))
  | readRow {w i op act f early} (hphase : (s.threads w).phase = .access i)
      (hop : (s.threads w).txn.cold[i]? = some op) (hact : (s.threads w).log[i]? = some act)
      (hget : act.future.get = some f) (hf : f.tuple = .row) (hmode : op.mode ≠ .write) :
      Move c s (.thread w early) ((s.setThread w (accessed (s.threads w) i act f)).record
        (.read (rowLock w (s.threads w) i op) (s.rows (w.nid, op.id)).tuple))
  | writePacket {w i op act f res early} (hphase : (s.threads w).phase = .access i)
      (hop : (s.threads w).txn.cold[i]? = some op) (hact : (s.threads w).log[i]? = some act)
      (hget : act.future.get = some f) (hf : f.tuple = .packet) (hpkt : f.pkt = some res)
      (hmode : op.mode = .write) :
      Move c s (.thread w early) ((s.setThread w (accessed (s.threads w) i act
        { f with pkt := some { res with tuple := op.value } })).record
        (.write (rowLock w (s.threads w) i op) op.value))
  | readPacket {w i op act f res early} (hphase : (s.threads w).phase = .access i)
      (hop : (s.threads w).txn.cold[i]? = some op) (hact : (s.threads w).log[i]? = some act)
      (hget : act.future.get = some f) (hf : f.tuple = .packet) (hpkt : f.pkt = some res)
      (hmode : op.mode ≠ .write) :
      Move c s (.thread w early) ((s.setThread w (accessed (s.threads w) i act f)).record
        (.read (rowLock w (s.threads w) i op) res.tuple))
  | accessNull {w i op act f early} (hphase : (s.threads w).phase = .access i)
      (hop : (s.threads w).txn.cold[i]? = some op) (hact : (s.threads w).log[i]? = some act)
      (hget : act.future.get = some f) (hf : f.tuple ≠ .row ∧ f.tuple ≠ .packet) :
      Move c s (.thread w early) (s.setPhase w (.clear .rollback 0))
  | alloc {w mb q early} (hphase : (s.threads w).phase = .alloc)
      (hmb : (s.threads w).miniBatchNum = some mb)
      (hq : (s.hotSendQ w.nid).allocSlot mb (s.attempt w) = some q) :
      Move c s (.thread w early) (({ s with
        hotSendQ := Function.update s.hotSendQ w.nid q
        slots := s.slots ++
          [(s.attempt w, s.batch w.nid, (s.hotSendQ w.nid).sendQTail)] }.setPhase w
        (.clear .commit 0)).record (.commit (s.attempt w)))
  | endClear {w rc j early} (hphase : (s.threads w).phase = .clear rc j)
      (hact : (s.threads w).log[j]? = none) :
      Move c s (.thread w early) (s.setPhase w (.waitPuts rc))
  | clearLocal {w rc j act row early} (hphase : (s.threads w).phase = .clear rc j)
      (hact : (s.threads w).log[j]? = some act) (htarget : act.target = none)
      (hput : (s.rows (w.nid, act.index)).localUnlock act.mode act.future.lastAcq =
        (.success, row)) :
      Move c s (.thread w early)
        (((s.setRow w.nid act.index row).setPhase w (.clear rc (j + 1))).record
          (.unlock ⟨s.attempt w, j, act.index, decide (act.mode = .write)⟩))
  | clearSkip {w rc j act target f early} (hphase : (s.threads w).phase = .clear rc j)
      (hact : (s.threads w).log[j]? = some act) (htarget : act.target = some target)
      (hget : act.future.get = some f) (hf : f.tuple = .exception) :
      Move c s (.thread w early) (s.setPhase w (.clear rc (j + 1)))
  | clearRemote {w rc j act target f res early} (hphase : (s.threads w).phase = .clear rc j)
      (hact : (s.threads w).log[j]? = some act) (htarget : act.target = some target)
      (hget : act.future.get = some f) (hf : f.tuple ≠ .exception) (hpkt : f.pkt = some res) :
      Move c s (.thread w early) (({ s with
        putResponses := Function.update s.putResponses w (s.putResponses w + 1) }.setPhase w
        (.clear rc (j + 1))).send target
        { res with type := .tuplePutReq, sender := w, pack := f.lastAcq.getPacked })
  | finish {w rc early} (hphase : (s.threads w).phase = .waitPuts rc)
      (hputs : s.putResponses w = 0) :
      Move c s (.thread w early) { s.setThread w { s.threads w with phase := .idle, log := [] } with
        finished := (s.attempt w, rc) :: s.finished }
  | getReqRefused {p} (hp : p ∈ s.net) (htype : p.msg.type = .tupleGetReq) :
      Move c s (.deliver p) ({ s with net := s.net.erase p }.send p.msg.sender.nid
        { p.msg with type := .tupleGetRes, mode := .invalid })
  | getReqGranted {p row} (hp : p ∈ s.net) (htype : p.msg.type = .tupleGetReq)
      (hacq : (s.rows (p.dst, p.msg.rid)).acquire p.msg.mode (TxnId.ofPacked p.msg.pack) =
        some (some row)) :
      Move c s (.deliver p)
        ((({ s with net := s.net.erase p }.setRow p.dst p.msg.rid row).send p.msg.sender.nid
        { p.msg with
          type := .tupleGetRes
          pack := (s.rows (p.dst, p.msg.rid)).lastAcq.getPacked
          tuple := (s.rows (p.dst, p.msg.rid)).tuple }).record (.lock p.msg.rowLock))
  | getRes {p tid i} (hp : p ∈ s.net) (htype : p.msg.type = .tupleGetRes)
      (hfut : s.openFutures (p.dst, p.msg.msgId) = some (tid, i)) :
      Move c s (.deliver p) ({ s with
        net := s.net.erase p
        openFutures := Function.update s.openFutures (p.dst, p.msg.msgId) none }.setThread
        ⟨p.dst, tid⟩
        { s.threads ⟨p.dst, tid⟩ with
          log := (s.threads ⟨p.dst, tid⟩).log.modify i fun act =>
            { act with future := act.future.setPkt p.msg } })
  | putReq {p} (hp : p ∈ s.net) (htype : p.msg.type = .tuplePutReq) :
      Move c s (.deliver p) ((({ s with net := s.net.erase p }.setRow p.dst p.msg.rid
        ((s.rows (p.dst, p.msg.rid)).remoteUnlock p.msg.mode p.msg.tuple p.msg.pack)).send
        p.msg.sender.nid { p.msg with type := .tuplePutRes }).record (.unlock p.msg.rowLock))
  | putRes {p} (hp : p ∈ s.net) (htype : p.msg.type = .tuplePutRes) :
      Move c s (.deliver p) { s with
        net := s.net.erase p
        putResponses := Function.update s.putResponses ⟨p.dst, p.msg.sender.tid⟩
          (s.putResponses ⟨p.dst, p.msg.sender.tid⟩ - 1) }
  | doneSending {n} :
      Move c s (.doneSending n) { s with
        hotSendQ := Function.update s.hotSendQ n (s.hotSendQ n).doneSending
        batch := Function.update s.batch n (s.batch n + 1) }

/-! ### There are no other moves -/

theorem move_of_start {txn : Txn} {mb : Option ℕ} (h : s.start c w txn mb = some (.ok s')) :
    Move c s (.start w txn mb) s' := by
  unfold start at h
  split_ifs at h with hg
  obtain ⟨hphase, hplaced⟩ := hg
  cases mb with
  | some mb =>
    simp only at h
    split_ifs at h with hid
    · obtain rfl := Except.ok.inj (Option.some.inj h)
      exact .enter hphase hplaced ⟨hid.1, rfl, hid.2.1, hid.2.2⟩
    · cases h
  | none =>
    obtain rfl := Except.ok.inj (Option.some.inj h)
    exact .enter hphase hplaced rfl

theorem move_of_lockOp {i : ℕ} {op : Op} (hphase : (s.threads w).phase = .acquire i)
    (hop : (s.threads w).txn.cold[i]? = some op)
    (h : s.lockOp c w i op op.mode early = some (.ok s')) : Move c s (.thread w early) s' := by
  unfold lockOp at h
  cases hlocal : op.locInfo.isLocal with
  | true =>
    simp only [hlocal, ↓reduceIte] at h
    split_ifs at h with hearly hbusy
    · obtain rfl := Except.ok.inj (Option.some.inj h)
      exact .refuse hphase
    · -- the lock under the mutex
      unfold tableGet Row.localLock at h
      split_ifs at h with hsize
      · obtain rfl := Except.ok.inj (Option.some.inj h)
        exact .refuse hphase
      · rcases hacq : (s.rows (w.nid, op.id)).acquire op.mode (s.threads w).txn.id with _ | _ | row
        · simp [hacq] at h
        · simp only [hacq, Option.map_some] at h
          obtain rfl := Except.ok.inj (Option.some.inj h)
          exact .refuse hphase
        · simp only [hacq, Option.map_some] at h
          obtain rfl := Except.ok.inj (Option.some.inj h)
          exact .lockLocal hphase hop hlocal hacq
  | false =>
    simp only [hlocal, Bool.false_eq_true, ↓reduceIte] at h
    split_ifs at h with hopen
    · cases h
    · obtain rfl := Except.ok.inj (Option.some.inj h)
      exact .request hphase hop hlocal (Option.not_isSome_iff_eq_none.mp hopen)

theorem move_of_acquire {i : ℕ} (hphase : (s.threads w).phase = .acquire i)
    (h : s.acquire c w i early = some (.ok s')) : Move c s (.thread w early) s' := by
  unfold acquire at h
  cases hop : (s.threads w).txn.cold[i]? with
  | none =>
    simp only [hop] at h
    split_ifs at h with hend
    · cases h
    · obtain rfl := Except.ok.inj (Option.some.inj h)
      exact .endAcquire hphase hop
  | some op =>
    simp only [hop] at h
    have hvalid := mode_ne_invalid_of_cold hop
    split_ifs at h with hmode
    · exact move_of_lockOp hphase hop (by rw [hmode]; exact h)
    · have hread : op.mode = .read := by cases hm : op.mode <;> simp_all
      exact move_of_lockOp hphase hop (by rw [hread]; exact h)

theorem move_of_await {i : ℕ} (hphase : (s.threads w).phase = .await i)
    (h : s.await w i = some (.ok s')) : Move c s (.thread w early) s' := by
  unfold await at h
  obtain ⟨act, hact, h⟩ := Option.bind_eq_some_iff.mp h
  obtain ⟨f, hget, h⟩ := Option.bind_eq_some_iff.mp h
  split_ifs at h with hf
  · obtain rfl := Except.ok.inj (Option.some.inj h)
    exact .awaitRefused hphase hact hget hf
  · obtain rfl := Except.ok.inj (Option.some.inj h)
    exact .awaitGranted hphase hact hget hf

theorem move_of_accessOp {i : ℕ} {op : Op} {act : UndoAction} {f : TupleFuture}
    (hphase : (s.threads w).phase = .access i) (hop : (s.threads w).txn.cold[i]? = some op)
    (hact : (s.threads w).log[i]? = some act) (hget : act.future.get = some f)
    (h : s.accessOp w i op act f = some s') : Move c s (.thread w early) s' := by
  unfold accessOp at h
  split at h
  case h_1 hf =>
    split_ifs at h with hmode
    · obtain rfl := Option.some.inj h
      exact .writeRow hphase hop hact hget hf hmode
    · obtain rfl := Option.some.inj h
      exact .readRow hphase hop hact hget hf hmode
  case h_2 hf =>
    obtain ⟨res, hpkt, h⟩ := Option.map_eq_some_iff.mp h
    split_ifs at h with hmode
    · subst h
      exact .writePacket hphase hop hact hget hf hpkt hmode
    · subst h
      exact .readPacket hphase hop hact hget hf hpkt hmode
  case h_3 hrow hpacket =>
    obtain rfl := Option.some.inj h
    exact .accessNull hphase hop hact hget ⟨hrow, hpacket⟩

theorem move_of_access {i : ℕ} (hphase : (s.threads w).phase = .access i)
    (h : s.access w i = some (.ok s')) : Move c s (.thread w early) s' := by
  unfold access at h
  cases hop : (s.threads w).txn.cold[i]? with
  | none =>
    simp only [hop] at h
    cases hmb : (s.threads w).miniBatchNum with
    | none =>
      simp only [hmb] at h
      obtain rfl := Except.ok.inj (Option.some.inj h)
      exact .commit hphase hop hmb
    | some mb =>
      simp only [hmb] at h
      obtain rfl := Except.ok.inj (Option.some.inj h)
      exact .toAlloc hphase hop (by simp [hmb])
  | some op =>
    simp only [hop] at h
    obtain ⟨act, hact, h⟩ := Option.bind_eq_some_iff.mp h
    obtain ⟨f, hget, h⟩ := Option.bind_eq_some_iff.mp h
    obtain ⟨s'', hs, h⟩ := Option.bind_eq_some_iff.mp h
    obtain rfl := Except.ok.inj (Option.some.inj h)
    exact move_of_accessOp hphase hop hact hget hs

theorem move_of_alloc (hphase : (s.threads w).phase = .alloc) (h : s.alloc w = some (.ok s')) :
    Move c s (.thread w early) s' := by
  unfold alloc at h
  obtain ⟨mb, hmb, h⟩ := Option.bind_eq_some_iff.mp h
  cases hq : (s.hotSendQ w.nid).allocSlot mb (s.attempt w) with
  | none => simp [hq] at h
  | some q =>
    simp only [hq] at h
    obtain rfl := Except.ok.inj (Option.some.inj h)
    exact .alloc hphase hmb hq

theorem move_of_clear {rc : RC} {j : ℕ} (hphase : (s.threads w).phase = .clear rc j)
    (h : s.clear c w rc j = some (.ok s')) : Move c s (.thread w early) s' := by
  unfold clear at h
  cases hact : (s.threads w).log[j]? with
  | none =>
    simp only [hact] at h
    obtain rfl := Except.ok.inj (Option.some.inj h)
    exact .endClear hphase hact
  | some act =>
    simp only [hact] at h
    cases htarget : act.target with
    | none =>
      simp only [htarget] at h
      split_ifs at h with hnull
      · cases h
      unfold tablePut at h
      split_ifs at h with hsize
      · simp at h
      · rcases hput : (s.rows (w.nid, act.index)).localUnlock act.mode act.future.lastAcq with
          ⟨code, row⟩
        cases code with
        | success =>
          simp only [hput] at h
          obtain rfl := Except.ok.inj (Option.some.inj h)
          exact .clearLocal hphase hact htarget hput
        | _ => simp [hput] at h
    | some target =>
      simp only [htarget] at h
      obtain ⟨f, hget, h⟩ := Option.bind_eq_some_iff.mp h
      split_ifs at h with hf
      · obtain rfl := Except.ok.inj (Option.some.inj h)
        exact .clearSkip hphase hact htarget hget hf
      · obtain ⟨res, hpkt, h⟩ := Option.bind_eq_some_iff.mp h
        obtain rfl := Except.ok.inj (Option.some.inj h)
        exact .clearRemote hphase hact htarget hget hf hpkt

theorem move_of_deliver {p : Packet} (h : s.deliver p = some (.ok s')) :
    Move c s (.deliver p) s' := by
  unfold deliver at h
  split_ifs at h with hp
  cases htype : p.msg.type with
  | tupleGetReq =>
    simp only [htype, handleGetReq, Row.remoteLock] at h
    rcases hacq : (s.rows (p.dst, p.msg.rid)).acquire p.msg.mode (TxnId.ofPacked p.msg.pack) with
      _ | _ | row
    · simp [hacq] at h
    · simp only [hacq, Option.map_some] at h
      obtain rfl := Except.ok.inj (Option.some.inj h)
      exact .getReqRefused hp htype
    · simp only [hacq, Option.map_some] at h
      obtain rfl := Except.ok.inj (Option.some.inj h)
      exact .getReqGranted hp htype hacq
  | tupleGetRes =>
    simp only [htype, handleGetRes] at h
    cases hfut : s.openFutures (p.dst, p.msg.msgId) with
    | none => simp [hfut] at h
    | some x =>
      simp only [hfut] at h
      obtain rfl := Except.ok.inj (Option.some.inj h)
      exact .getRes hp htype hfut
  | tuplePutReq =>
    simp only [htype, handlePutReq] at h
    obtain rfl := Except.ok.inj (Option.some.inj h)
    exact .putReq hp htype
  | tuplePutRes =>
    simp only [htype, handlePutRes] at h
    obtain rfl := Except.ok.inj (Option.some.inj h)
    exact .putRes hp htype

/-- **A step that does not fail is one of the moves.** -/
theorem move_of_exec {a : Action} (h : s.exec c a = some (.ok s')) : Move c s a s' := by
  cases a with
  | start w txn mb => exact move_of_start h
  | thread w early =>
    simp only [exec, threadStep] at h
    cases hphase : (s.threads w).phase with
    | idle => simp [hphase] at h
    | acquire i => exact move_of_acquire hphase (by simpa only [hphase] using h)
    | await i => exact move_of_await hphase (by simpa only [hphase] using h)
    | access i => exact move_of_access hphase (by simpa only [hphase] using h)
    | alloc => exact move_of_alloc hphase (by simpa only [hphase] using h)
    | clear rc j => exact move_of_clear hphase (by simpa only [hphase] using h)
    | waitPuts rc =>
      simp only [hphase, finish] at h
      split_ifs at h with hputs
      obtain rfl := Except.ok.inj (Option.some.inj h)
      exact .finish hphase hputs
  | deliver p => exact move_of_deliver h
  | doneSending n =>
    obtain rfl := Except.ok.inj (Option.some.inj h)
    exact .doneSending

/-- A step is a move or the end of a process. -/
theorem step_cases {a : Action} (h : s.step c a = some s') :
    Move c s a s' ∨ ∃ f, s.exec c a = some (.error f) ∧
      s' = { s with halted := Function.update s.halted a.node (some f) } := by
  unfold step at h
  split_ifs at h
  obtain ⟨r, hr, heq⟩ := Option.map_eq_some_iff.mp h
  cases r with
  | ok s'' => exact Or.inl (heq ▸ move_of_exec hr)
  | error f => exact Or.inr ⟨f, hr, heq.symm⟩

/-! ### Failed checks -/

/-- The checks that can fail, with what is known when they do. -/
inductive Failure (c : Config) (s : System) : Action → Fault → Prop
  | txnId {w txn mb} : Failure c s (.start w txn mb) .txnId
  | invalidOp {w i early} (hphase : (s.threads w).phase = .acquire i)
      (hop : (s.threads w).txn.cold[i]? = none) : Failure c s (.thread w early) .invalidOp
  | lockLocal {w i op early} (hphase : (s.threads w).phase = .acquire i)
      (hop : (s.threads w).txn.cold[i]? = some op) (hlocal : op.locInfo.isLocal = true)
      (hallow : (s.rows (w.nid, op.id)).mbAllowLock (s.threads w).txn.id = none) :
      Failure c s (.thread w early) .mbAllowLock
  | addFuture {w : NodeT} {early : Bool}
      (hfut : (s.openFutures (w.nid, s.nextId w.nid)).isSome = true) :
      Failure c s (.thread w early) .openFutures
  | allocSlot {w : NodeT} {early : Bool} (hphase : (s.threads w).phase = .alloc) :
      Failure c s (.thread w early) .allocSlot
  | undo {w rc j act early} (hphase : (s.threads w).phase = .clear rc j)
      (hact : (s.threads w).log[j]? = some act) (htarget : act.target = none)
      (hfail : act.future.tuple = .null ∨
        (s.tablePut c w.nid act.index act.mode act.future.lastAcq).1 ≠ .success) :
      Failure c s (.thread w early) .undo
  | getReq {p} (hp : p ∈ s.net) (htype : p.msg.type = .tupleGetReq)
      (hallow : (s.rows (p.dst, p.msg.rid)).mbAllowLock (TxnId.ofPacked p.msg.pack) = none) :
      Failure c s (.deliver p) .mbAllowLock
  | getRes {p} (hp : p ∈ s.net) (htype : p.msg.type = .tupleGetRes)
      (hfut : s.openFutures (p.dst, p.msg.msgId) = none) : Failure c s (.deliver p) .openFutures

variable {f : Fault}

theorem failure_of_start {txn : Txn} {mb : Option ℕ} (h : s.start c w txn mb = some (.error f)) :
    Failure c s (.start w txn mb) f := by
  unfold start at h
  split_ifs at h
  split at h
  · simp only at h
    split_ifs at h
    · cases h
    · obtain rfl := Except.error.inj (Option.some.inj h)
      exact .txnId
  · cases h

theorem failure_of_lockOp {i : ℕ} {op : Op} {mode : AccessMode}
    (hphase : (s.threads w).phase = .acquire i) (hop : (s.threads w).txn.cold[i]? = some op)
    (h : s.lockOp c w i op mode early = some (.error f)) : Failure c s (.thread w early) f := by
  unfold lockOp at h
  cases hlocal : op.locInfo.isLocal with
  | true =>
    simp only [hlocal, ↓reduceIte] at h
    split_ifs at h with hearly hbusy
    · cases h
    unfold tableGet Row.localLock at h
    split_ifs at h with hsize
    · cases h
    rcases hacq : (s.rows (w.nid, op.id)).acquire mode (s.threads w).txn.id with _ | _ | row
    · simp only [hacq, Option.map_none] at h
      obtain rfl := Except.error.inj (Option.some.inj h)
      exact .lockLocal hphase hop hlocal (Row.acquire_eq_none hacq)
    · simp [hacq] at h
    · simp [hacq] at h
  | false =>
    simp only [hlocal, Bool.false_eq_true, ↓reduceIte] at h
    split_ifs at h with hopen
    · obtain rfl := Except.error.inj (Option.some.inj h)
      exact .addFuture hopen
    · cases h

theorem failure_of_acquire {i : ℕ} (hphase : (s.threads w).phase = .acquire i)
    (h : s.acquire c w i early = some (.error f)) : Failure c s (.thread w early) f := by
  unfold acquire at h
  cases hop : (s.threads w).txn.cold[i]? with
  | none =>
    simp only [hop] at h
    split_ifs at h
    · obtain rfl := Except.error.inj (Option.some.inj h)
      exact .invalidOp hphase hop
    · cases h
  | some op =>
    simp only [hop] at h
    split_ifs at h <;> exact failure_of_lockOp hphase hop h

theorem failure_of_clear {rc : RC} {j : ℕ} (hphase : (s.threads w).phase = .clear rc j)
    (h : s.clear c w rc j = some (.error f)) : Failure c s (.thread w early) f := by
  unfold clear at h
  cases hact : (s.threads w).log[j]? with
  | none => simp [hact] at h
  | some act =>
    simp only [hact] at h
    cases htarget : act.target with
    | none =>
      simp only [htarget] at h
      split_ifs at h with hnull
      · obtain rfl := Except.error.inj (Option.some.inj h)
        exact .undo hphase hact htarget (Or.inl hnull)
      · split at h
        · cases h
        · rename_i hne
          obtain rfl := Except.error.inj (Option.some.inj h)
          refine .undo hphase hact htarget (Or.inr fun hsucc => ?_)
          exact hne _ (Prod.ext hsucc rfl)
    | some target =>
      simp only [htarget, Option.bind_eq_bind, Option.bind_eq_some_iff] at h
      obtain ⟨f', -, h⟩ := h
      split_ifs at h
      · cases h
      · obtain ⟨res, -, h⟩ := Option.bind_eq_some_iff.mp h
        cases h

theorem failure_of_threadStep (h : s.threadStep c w early = some (.error f)) :
    Failure c s (.thread w early) f := by
  unfold threadStep at h
  cases hphase : (s.threads w).phase with
  | idle => simp [hphase] at h
  | acquire i =>
    simp only [hphase] at h
    exact failure_of_acquire hphase h
  | await i =>
    simp only [hphase, await, Option.bind_eq_bind, Option.bind_eq_some_iff] at h
    obtain ⟨act, -, f', -, h⟩ := h
    split_ifs at h <;> cases h
  | access i =>
    simp only [hphase, access] at h
    split at h
    · split at h <;> cases h
    · simp only [Option.bind_eq_bind, Option.bind_eq_some_iff] at h
      obtain ⟨act, -, f', -, s', -, h⟩ := h
      cases h
  | alloc =>
    simp only [hphase, alloc, Option.bind_eq_bind, Option.bind_eq_some_iff] at h
    obtain ⟨mb, -, h⟩ := h
    split at h
    · obtain rfl := Except.error.inj (Option.some.inj h)
      exact .allocSlot hphase
    · cases h
  | clear rc j =>
    simp only [hphase] at h
    exact failure_of_clear hphase h
  | waitPuts rc =>
    simp only [hphase, finish] at h
    split_ifs at h
    cases h

theorem failure_of_deliver {p : Packet} (h : s.deliver p = some (.error f)) :
    Failure c s (.deliver p) f := by
  unfold deliver at h
  split_ifs at h with hp
  cases htype : p.msg.type with
  | tupleGetReq =>
    simp only [htype, handleGetReq, Row.remoteLock] at h
    rcases hacq : (s.rows (p.dst, p.msg.rid)).acquire p.msg.mode (TxnId.ofPacked p.msg.pack) with
      _ | _ | row
    · simp only [hacq, Option.map_none] at h
      obtain rfl := Except.error.inj (Option.some.inj h)
      exact .getReq hp htype (Row.acquire_eq_none hacq)
    · simp [hacq] at h
    · simp [hacq] at h
  | tupleGetRes =>
    simp only [htype, handleGetRes] at h
    split at h
    · rename_i hfut
      obtain rfl := Except.error.inj (Option.some.inj h)
      exact .getRes hp htype hfut
    · cases h
  | tuplePutReq =>
    simp only [htype, handlePutReq] at h
    cases h
  | tuplePutRes =>
    simp only [htype, handlePutRes] at h
    cases h

/-- There are no other failures. -/
theorem failure_of_exec {a : Action} (h : s.exec c a = some (.error f)) : Failure c s a f := by
  cases a with
  | start w txn mb => exact failure_of_start h
  | thread w early => exact failure_of_threadStep h
  | deliver p => exact failure_of_deliver h
  | doneSending n => cases h

end System

end P4db
