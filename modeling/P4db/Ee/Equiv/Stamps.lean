import P4db.Algorithm.StampOrder
import P4db.Ee.Equiv.Travel

/-!
# Stamps under write locks

`OwnStamps` says of all the places in which a stamp travels that they hold the stamp the row still
has, until `my_execute` replaces it by its own identifier.

This needs exclusive locks, so every operation is assumed to be a write
(`Coupled.lastAcq_of_carries`).
-/

namespace P4db

open TwoPhase

/-! ### The order of stamps -/

/-- Stamps are ordered by mini-batch; within a mini-batch only those of one node are comparable. -/
instance : Preorder TxnId where
  le id id' := id.miniBatchId < id'.miniBatchId ∨
    id.miniBatchId = id'.miniBatchId ∧ id.nodeId = id'.nodeId
  le_refl _ := Or.inr ⟨rfl, rfl⟩
  le_trans id id' id'' h h' := by
    rcases h with hlt | ⟨hmb, hnode⟩
    · rcases h' with hlt' | ⟨hmb', -⟩
      · exact Or.inl (BitVec.lt_trans hlt hlt')
      · exact Or.inl (hmb' ▸ hlt)
    · rw [hmb, hnode]
      exact h'

theorem TxnId.le_iff {id id' : TxnId} : id ≤ id' ↔ id.miniBatchId < id'.miniBatchId ∨
    id.miniBatchId = id'.miniBatchId ∧ id.nodeId = id'.nodeId := Iff.rfl

/-- `mb_allow_lock` lets a transaction with a valid identifier pass only if the stamp precedes
it. -/
theorem Row.lastAcq_le_of_mbAllowLock {row : Row} {txnId : TxnId} (hvalid : txnId.valid = true)
    (h : row.mbAllowLock txnId = some true) : row.lastAcq ≤ txnId := by
  have hnode := Row.mbAllowLock_eq_true hvalid h
  unfold mbAllowLock at h
  rw [if_pos hvalid] at h
  split_ifs at h with hle
  rcases Nat.lt_or_eq_of_le (BitVec.le_def.mp hle) with hlt | heq
  · exact Or.inl (BitVec.lt_def.mpr hlt)
  · exact Or.inr ⟨BitVec.eq_of_toNat_eq heq, hnode (BitVec.eq_of_toNat_eq heq)⟩

theorem Row.mbAllowLock_eq_none {row : Row} {txnId : TxnId} (h : row.mbAllowLock txnId = none) :
    txnId.valid = true ∧ txnId.miniBatchId < row.lastAcq.miniBatchId := by
  unfold mbAllowLock at h
  split_ifs at h with hvalid hle
  exact ⟨hvalid, BitVec.not_le.mp hle⟩

/-! ### Stamps on their way -/

namespace System

variable {c : Config} {s s' : System} {a : Ledger} {w w' : NodeT} {store₀ : DbKey → BitVec 32}
  {i j : ℕ} {v v' : TxnId} {op op' : Op}

/-- The stamps that travel for one thread. -/
structure OwnStamps (c : Config) (s : System) (w : NodeT) : Prop where
  carried : ∀ i v op, Carries s w i v → (s.threads w).txn.cold[i]? = some op →
    v = due (s.threads w) i (s.lastAcq c op.id)
  ordered : ∀ i v op, Carries s w i v → (s.threads w).txn.cold[i]? = some op →
    (s.threads w).miniBatchNum ≠ none → s.lastAcq c op.id ≤ (s.threads w).txn.id
  asked : ∀ p ∈ s.net, p.msg.att.worker = w → p.msg.type = .tupleGetReq →
    p.msg.pack = (s.threads w).txn.id.getPacked

/-- The stamps that travel. -/
def StampsOk (c : Config) (s : System) : Prop := ∀ w, OwnStamps c s w

/-- What is assumed of the calls: all operations are writes, and the identifiers are right. -/
structure CallsOk (s : System) : Prop where
  write : ∀ e ∈ s.started, ∀ op ∈ e.2.1.cold, op.mode = .write
  ident : ∀ e ∈ s.started, IdOk e.1.worker e.2.1 e.2.2

/-- A call of `my_execute` has a valid identifier. -/
theorem CallsOk.valid (h : CallsOk s) (hr : Recorded s) (hne : (s.threads w).phase ≠ .idle)
    (hmb : (s.threads w).miniBatchNum ≠ none) : (s.threads w).txn.id.valid = true := by
  have hid := h.ident _ (hr.current w hne)
  cases hm : (s.threads w).miniBatchNum with
  | none => exact absurd hm hmb
  | some m =>
    rw [hm] at hid
    exact hid.2.1

/-- What a grant says about the stamp. -/
theorem lastAcq_of_acquire {row row' : Row} {mode : AccessMode} {id : TxnId}
    (hacq : row.acquire mode id = some (some row')) :
    row'.lastAcq = row.lastAcq ∧ (id.valid = true → row.lastAcq ≤ id) := by
  obtain ⟨hallow, -, rfl⟩ := Row.acquire_eq_some_some.mp hacq
  exact ⟨rfl, fun hvalid => Row.lastAcq_le_of_mbAllowLock hvalid hallow⟩

/-- The row of an operation that carries a stamp keeps its stamp: a release by somebody else would
be one of a second lock on the row. -/
theorem Coupled.lastAcq_of_carries (hc : Coupled c store₀ s a) (hr : Recorded s)
    (hcalls : CallsOk s) {action : Action} (hmove : Move c s action s') (hcar : Carries s' w i v)
    (hop : (s'.threads w).txn.cold[i]? = some op) : s'.lastAcq c op.id = s.lastAcq c op.id := by
  rcases lastAcq_of_locks (hc.change hmove).locks with heq | ⟨l, hrel, hitem⟩
  · exact heq
  exfalso
  obtain ⟨a', hsteps, hc'⟩ := hc.of_move hmove
  have hhist : a'.history = a.history ++ [.unlock l] := by
    rw [hc'.history, hrel.history, hc.history]
  have hl' := hc'.held_of_carries hcar hop
  cases hsteps with
  | refl => exact nomatch List.self_eq_append_right.mp hhist
  | single hstep =>
    obtain ⟨hl, order, rfl⟩ := hstep.eq_unlock hhist
    obtain ⟨hne, hold⟩ := hc.inv.nodup.mem_erase_iff.mp hl'
    have hsh := (hc.inv.compat _ hold l hl hne hitem.symm).1
    cases origin_of_move hc hmove w i v hcar ⟨op, hop⟩ with
    | carried hcar₀ _ htxn =>
      rw [htxn] at hop
      have hmode := hcalls.write _ (hr.current w (hc.phase_ne_idle_of_carries hcar₀ hop)) op
        (List.mem_of_getElem? hop)
      exact Bool.noConfusion (hsh.symm.trans (decide_eq_true hmode))
    | taken _ hlock =>
      exact nomatch (List.append_singleton_inj.mp (hlock.symm.trans hrel.history)).2

/-! ### Requests -/

/-- No new request, and the transactions stay. -/
theorem StampsOk.asked_of (h : StampsOk c s)
    (hnet : ∀ p ∈ s'.net, p.msg.type = .tupleGetReq → p ∈ s.net)
    (htxn : ∀ w, (s'.threads w).txn = (s.threads w).txn) : ∀ p ∈ s'.net, p.msg.type = .tupleGetReq →
      p.msg.pack = (s'.threads p.msg.att.worker).txn.id.getPacked := by
  intro p hp htype
  rw [htxn]
  exact (h _).asked p (hnet p hp htype) rfl htype

theorem txn_update {ph : Phase} {log : List UndoAction} (hthreads : s'.threads =
      Function.update s.threads w { s.threads w with phase := ph, log := log }) (w' : NodeT) :
    (s'.threads w').txn = (s.threads w').txn := by
  rw [hthreads]
  by_cases hw : w' = w
  · subst hw
    rw [Function.update_self]
  · rw [Function.update_of_ne hw]

/-- A request carries the identifier of its transaction. -/
theorem StampsOk.asked_of_move (h : StampsOk c s) (hc : Coupled c store₀ s a) {action : Action}
    (hmove : Move c s action s') : ∀ p ∈ s'.net, p.msg.type = .tupleGetReq →
      p.msg.pack = (s'.threads p.msg.att.worker).txn.id.getPacked := by
  -- the handlers put another message in the place of the one they handle
  have hreply : ∀ {p p' q : Packet}, q ∈ p' :: s.net.erase p → q.msg.type = .tupleGetReq →
      p'.msg.type ≠ .tupleGetReq → q ∈ s.net := fun hq htype hne =>
    (List.mem_cons.mp hq).elim (fun heq => absurd (heq ▸ htype) hne) List.mem_of_mem_erase
  cases hmove with
  | @enter w txn mb id hphase =>
    intro p hp htype
    have hw : p.msg.att.worker ≠ w := (hc.own w).no_msg_of_idle hphase p hp
    have hth : ((s.enter w { txn with id := id } mb).threads p.msg.att.worker) =
        s.threads p.msg.att.worker := Function.update_of_ne hw _ _
    rw [hth]
    exact (h _).asked p hp rfl htype
  | @request w i op _ hphase =>
    intro p hp htype
    refine Eq.trans ?_ (congrArg (fun txn : Txn => txn.id.getPacked)
      (txn_update (s := s) rfl _).symm)
    rcases List.mem_cons.mp hp with rfl | hp
    · rfl
    · exact (h _).asked p hp rfl htype
  | clearRemote =>
    refine h.asked_of (fun p hp htype => ?_) (txn_update rfl)
    rcases List.mem_cons.mp hp with rfl | hp
    · cases htype
    · exact hp
  | getRes => exact h.asked_of (fun p hp _ => List.mem_of_mem_erase hp) (txn_update rfl)
  | getReqRefused | getReqGranted | putReq =>
    exact h.asked_of (fun q hq htype => hreply hq htype nofun) fun _ => rfl
  | putRes => exact h.asked_of (fun p hp _ => List.mem_of_mem_erase hp) fun _ => rfl
  | doneSending => exact h.asked_of (fun _ hp _ => hp) fun _ => rfl
  | endAcquire | refuse | lockLocal | awaitRefused | awaitGranted | toAlloc | commit
  | writeRow | readRow
  | writePacket | readPacket | accessNull | alloc | endClear | clearLocal | clearSkip | finish =>
    exact h.asked_of (fun _ hp _ => hp) (txn_update rfl)

/-- **Every move keeps the stamps where they are.** -/
theorem StampsOk.of_move (h : StampsOk c s) (hc : Coupled c store₀ s a) (hr : Recorded s)
    (hcalls : CallsOk s) {action : Action} (hmove : Move c s action s') : StampsOk c s' := by
  intro w
  refine ⟨fun i v op hv hop => ?_, fun i v op hv hop hmb => ?_,
    fun p hp hw htype => hw ▸ h.asked_of_move hc hmove p hp htype⟩
  · rw [hc.lastAcq_of_carries hr hcalls hmove hv hop]
    cases origin_of_move hc hmove w i v hv ⟨op, hop⟩ with
    | carried hcar _ htxn _ hdue => exact hdue _ ((h w).carried i _ op hcar (htxn ▸ hop))
    | taken hop' _ _ _ hv' _ _ htxn _ hdue =>
      obtain rfl := Option.some.inj (hop'.symm.trans (htxn ▸ hop))
      rw [hdue, hv']
  · rw [hc.lastAcq_of_carries hr hcalls hmove hv hop]
    cases origin_of_move hc hmove w i v hv ⟨op, hop⟩ with
    | carried hcar _ htxn hmb' =>
      rw [htxn] at hop ⊢
      exact (h w).ordered i _ op hcar hop (hmb' ▸ hmb)
    | taken hop' _ hacq hid _ hphase _ htxn hmb' =>
      obtain rfl := Option.some.inj (hop'.symm.trans (htxn ▸ hop))
      rw [htxn]
      have hle := (lastAcq_of_acquire hacq).2
      rcases hid with rfl | ⟨p, hp, hw, htype, rfl⟩
      · exact hle (hcalls.valid hr hphase (hmb' ▸ hmb))
      · rw [(h w).asked p hp hw htype, TxnId.ofPacked_getPacked] at hle
        exact hle (hcalls.valid hr hphase (hmb' ▸ hmb))

/-- Nothing the invariant speaks about has changed. -/
theorem StampsOk.congr (h : StampsOk c s) (hrows : s'.rows = s.rows)
    (hthreads : s'.threads = s.threads) (hnet : s'.net = s.net) : StampsOk c s' := by
  intro w
  have hold : ∀ {i v}, Carries s' w i v → Carries s w i v := fun hv =>
    hv.congr (by rw [hthreads]) fun p _ hp => hnet ▸ hp
  refine ⟨fun i v op hv hop => ?_, fun i v op hv hop hmb => ?_, fun p hp => ?_⟩
  · rw [hthreads] at hop ⊢
    rw [lastAcq_of_rows hrows]
    exact (h w).carried i v op (hold hv) hop
  · rw [hthreads] at hop hmb ⊢
    rw [lastAcq_of_rows hrows]
    exact (h w).ordered i v op (hold hv) hop hmb
  · rw [hthreads]
    exact (h w).asked p (hnet ▸ hp)

theorem stampsOk_init (c : Config) (value : ℕ → DbKey → BitVec 32)
    (mem : ℕ → ℕ → HotTxnEntry Attempt) : StampsOk c (init value mem) := by
  intro w
  have hnone : ∀ i v, ¬Carries (init value mem) w i v := by
    intro i v hv
    cases hv with
    | entry hact => exact nomatch List.getElem?_nil.symm.trans hact
    | response hp => cases hp
    | release hp => cases hp
  exact ⟨fun i v _ hv => absurd hv (hnone i v), fun i v _ hv => absurd hv (hnone i v), nofun⟩

end System

end P4db
