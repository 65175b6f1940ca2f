import P4db.Algorithm.LockAccount
import P4db.Ee.Equiv.Changes

/-!
# Stamps on their way

A stamp is read when a lock is granted and written when it is released; in between it travels with
the lock, in the future of a log entry, in a `TupleGetRes` or in a `TuplePutReq` (`Carries`).

`origin_of_move` is all that invariants about these places need: what an operation carries after a
move it carried before, up to the replacement that `my_execute` makes when it accesses the tuple, or
it has just been read from the row.  `lastAcq_of_releases` is the other end: a release writes what
the operation carries.
-/

namespace P4db

open TwoPhase

theorem Row.lastAcq_localUnlock (row : Row) (mode : AccessMode) (id : TxnId) :
    (row.localUnlock mode id).2.lastAcq = id := by
  unfold Row.localUnlock
  simp only
  split_ifs <;> rfl

theorem Row.lastAcq_remoteUnlock (row : Row) (mode : AccessMode) (tuple pack : BitVec 32) :
    (row.remoteUnlock mode tuple pack).lastAcq = TxnId.ofPacked pack := by
  unfold Row.remoteUnlock
  exact Row.lastAcq_localUnlock _ _ _

namespace System

variable {c : Config} {s s' : System} {a : Ledger} {w w' : NodeT} {store₀ : DbKey → BitVec 32}
  {i j : ℕ} {v v' : TxnId} {op op' : Op}

/-! ### Carrying a stamp -/

/-- The stamp of the row that counts. -/
def lastAcq (c : Config) (s : System) (k : DbKey) : TxnId := (s.rows (c.owner k, k)).lastAcq

/-- The stamp operation `i` leaves if it releases a row with the stamp `seen`: the accesses of
`my_execute` replace it. -/
def due (th : Thread) (i : ℕ) (seen : TxnId) : TxnId :=
  if th.miniBatchNum.isSome ∧ i < th.phase.accessed th.txn.cold.length then th.txn.id else seen

/-- Operation `i` of the call of a thread has its lock, and this is the stamp that travels with
it. -/
inductive Carries (s : System) (w : NodeT) (i : ℕ) : TxnId → Prop
  | entry {act f} (hact : (s.threads w).log[i]? = some act) (hget : act.future.get = some f)
      (hf : f.tuple ≠ .exception) (hcl : (s.threads w).phase.cleared i = false) :
      Carries s w i f.lastAcq
  | response {p} (hp : p ∈ s.net) (hw : p.msg.att.worker = w) (hi : p.msg.op = i)
      (htype : p.msg.type = .tupleGetRes) (hmode : p.msg.mode ≠ .invalid) :
      Carries s w i (TxnId.ofPacked p.msg.pack)
  | release {p} (hp : p ∈ s.net) (hw : p.msg.att.worker = w) (hi : p.msg.op = i)
      (htype : p.msg.type = .tuplePutReq) : Carries s w i (TxnId.ofPacked p.msg.pack)

/-- What carries a stamp has the lock. -/
theorem Coupled.held_of_carries (h : Coupled c store₀ s a) (hcar : Carries s w i v)
    (hop : (s.threads w).txn.cold[i]? = some op) : rowLock w (s.threads w) i op ∈ a.held := by
  have ho := h.own w
  cases hcar with
  | @entry act f hact hget hf hcl =>
    obtain ⟨op', hop', hok⟩ := ho.thread.entry i act hact
    obtain rfl := Option.some.inj (hop.symm.trans hop')
    cases hlocal : op.locInfo.isLocal with
    | true => exact (hok.ofLocal hlocal).2.2.1 hcl
    | false =>
      rcases (hok.ofRemote hlocal).2.get (mode_ne_invalid_of_cold hop) hget with
        ⟨hex, -⟩ | ⟨res, -, -, -, hheld, -⟩
      · exact absurd hex hf
      · exact (hheld hcl).1
  | @response p hp hw hi htype hmode =>
    obtain ⟨op', act, hmsg⟩ := ho.msg p hp hw
    subst hi
    obtain rfl := Option.some.inj (hop.symm.trans hmsg.op_eq)
    rcases (hmsg.getRes htype).2 with ⟨hinv, -⟩ | ⟨-, hl, -⟩
    · exact absurd hinv hmode
    · exact hl
  | @release p hp hw hi htype =>
    obtain ⟨op', act, hmsg⟩ := ho.msg p hp hw
    subst hi
    obtain rfl := Option.some.inj (hop.symm.trans hmsg.op_eq)
    exact (hmsg.putReq htype).2.2.1

/-- A thread that carries a stamp is in a call. -/
theorem Coupled.phase_ne_idle_of_carries (h : Coupled c store₀ s a) (hcar : Carries s w i v)
    (hop : (s.threads w).txn.cold[i]? = some op) : (s.threads w).phase ≠ .idle := by
  intro hidle
  exact (h.own w).not_held_of_idle hidle (h.held_of_carries hcar hop) rfl

theorem Carries.congr (hth : s'.threads w = s.threads w)
    (hnet : ∀ p : Packet, p.msg.att.worker = w → p ∈ s'.net → p ∈ s.net) (h : Carries s' w i v) :
    Carries s w i v := by
  cases h with
  | entry hact hget hf hcl => exact .entry (hth ▸ hact) hget hf (hth ▸ hcl)
  | response hp hw hi htype hmode => exact .response (hnet _ hw hp) hw hi htype hmode
  | release hp hw hi htype => exact .release (hnet _ hw hp) hw hi htype

/-! ### Stamps of rows -/

section Rows
variable {n : ℕ} {k k' : DbKey} {row : Row}

theorem lastAcq_of_rows (hrows : s'.rows = s.rows) (k : DbKey) :
    s'.lastAcq c k = s.lastAcq c k := by
  rw [lastAcq, hrows, lastAcq]

theorem lastAcq_update (hrows : s'.rows = Function.update s.rows (n, k) row)
    (hrow : row.lastAcq = (s.rows (n, k)).lastAcq) (k' : DbKey) :
    s'.lastAcq c k' = s.lastAcq c k' := by
  rw [lastAcq, hrows, lastAcq]
  by_cases hkey : (c.owner k', k') = (n, k)
  · rw [hkey, Function.update_self, hrow]
  · rw [Function.update_of_ne hkey]

theorem lastAcq_update_self (hrows : s'.rows = Function.update s.rows (n, k) row)
    (hn : n = c.owner k) : s'.lastAcq c k = row.lastAcq := by
  rw [lastAcq, hrows, hn, Function.update_self]

end Rows

/-- After `get` a future has been got. -/
theorem get_get {f g : TupleFuture} (h : f.get = some g) : g.get = some g := by
  obtain ⟨pkt, tuple, acq⟩ := f
  cases tuple with
  | null =>
    obtain ⟨res, hres, heq⟩ := Option.map_eq_some_iff.mp h
    split_ifs at heq <;> subst heq <;> rfl
  | _ => exact Option.some.inj h ▸ h

theorem setPkt_get {f : TupleFuture} {m : TupleMsg} (h : f.tuple = .null) :
    (f.setPkt m).get = some (if m.mode = .invalid then { f.setPkt m with tuple := .exception }
      else { f.setPkt m with tuple := .packet, lastAcq := TxnId.ofPacked m.pack }) := by
  obtain ⟨pkt, tuple, acq⟩ := f
  obtain rfl : tuple = .null := h
  rfl

/-! ### Where a stamp comes from -/

/-- Where the stamp that operation `i` carries after a move comes from. -/
inductive Origin (c : Config) (s s' : System) (w : NodeT) (i : ℕ) (v' : TxnId) : Prop
  | carried {v : TxnId} (hcar : Carries s w i v) (hseq : (s'.threads w).seq = (s.threads w).seq)
      (htxn : (s'.threads w).txn = (s.threads w).txn)
      (hmb : (s'.threads w).miniBatchNum = (s.threads w).miniBatchNum)
      (hdue : ∀ seen, v = due (s.threads w) i seen → v' = due (s'.threads w) i seen)
  | taken {op : Op} {id : TxnId} {row : Row} (hop : (s.threads w).txn.cold[i]? = some op)
      (hhist : s'.history = s.history ++ [.lock (rowLock w (s.threads w) i op)])
      (hacq : (s.rows (c.owner op.id, op.id)).acquire op.mode id = some (some row))
      (hid : id = (s.threads w).txn.id ∨ ∃ p ∈ s.net, p.msg.att.worker = w ∧
        p.msg.type = .tupleGetReq ∧ id = TxnId.ofPacked p.msg.pack)
      (hv : v' = s.lastAcq c op.id) (hphase : (s.threads w).phase ≠ .idle)
      (hseq : (s'.threads w).seq = (s.threads w).seq)
      (htxn : (s'.threads w).txn = (s.threads w).txn)
      (hmb : (s'.threads w).miniBatchNum = (s.threads w).miniBatchNum)
      (hdue : ∀ seen, due (s'.threads w) i seen = seen)

/-- All stamps on their way come from somewhere. -/
def Origins (c : Config) (s s' : System) : Prop := ∀ w i v', Carries s' w i v' →
  (∃ op, (s'.threads w).txn.cold[i]? = some op) → Origin c s s' w i v'

/-- The stamp is where it was, and the operation has been accessed exactly if it had. -/
theorem Origin.same (hcar : Carries s w i v) (hseq : (s'.threads w).seq = (s.threads w).seq)
    (htxn : (s'.threads w).txn = (s.threads w).txn)
    (hmb : (s'.threads w).miniBatchNum = (s.threads w).miniBatchNum)
    (hacc : i < (s'.threads w).phase.accessed (s.threads w).txn.cold.length ↔
      i < (s.threads w).phase.accessed (s.threads w).txn.cold.length) : Origin c s s' w i v := by
  refine .carried hcar hseq htxn hmb fun seen hv => ?_
  simp only [due, htxn, hmb, hacc] at hv ⊢
  exact hv

/-- What a move by, or for, a thread has to show. -/
theorem origins_of (w : NodeT) (hown : ∀ i v', Carries s' w i v' →
      (∃ op, (s'.threads w).txn.cold[i]? = some op) → Origin c s s' w i v')
    (hthreads : ∀ w', w ≠ w' → s'.threads w' = s.threads w')
    (hnet : ∀ p : Packet, w ≠ p.msg.att.worker → p ∈ s'.net → p ∈ s.net) : Origins c s s' := by
  intro w' i v' hv hop
  by_cases hw : w = w'
  · subst hw
    exact hown i v' hv hop
  · have hth := hthreads w' hw
    have hold := hv.congr hth fun p hp => hnet p (hp ▸ hw)
    exact .same hold (by rw [hth]) (by rw [hth]) (by rw [hth]) (by rw [hth])

/-! ### Moves of a thread -/

/-- Only the phase and the log of one thread change, and it carries nothing new. -/
theorem origins_goOn {ph : Phase} {log : List UndoAction}
    (hthreads : s'.threads =
      Function.update s.threads w { s.threads w with phase := ph, log := log })
    (hnet : s'.net = s.net)
    (hentry : ∀ i act f, log[i]? = some act → act.future.get = some f → f.tuple ≠ .exception →
      ph.cleared i = false → Carries s w i f.lastAcq)
    (hacc : ∀ i v op, Carries s w i v → (s.threads w).txn.cold[i]? = some op →
      (i < ph.accessed (s.threads w).txn.cold.length ↔
        i < (s.threads w).phase.accessed (s.threads w).txn.cold.length)) : Origins c s s' := by
  have hself : s'.threads w = { s.threads w with phase := ph, log := log } := by
    rw [hthreads, Function.update_self]
  refine origins_of w (fun i v hv hop => ?_)
    (fun w' hw => by rw [hthreads, Function.update_of_ne (Ne.symm hw)]) (fun p _ hp => hnet ▸ hp)
  have hold : Carries s w i v := by
    cases hv with
    | entry hact hget hf hcl =>
      rw [hself] at hact hcl
      exact hentry i _ _ hact hget hf hcl
    | response hp hw hi htype hmode => exact .response (hnet ▸ hp) hw hi htype hmode
    | release hp hw hi htype => exact .release (hnet ▸ hp) hw hi htype
  obtain ⟨op, hop⟩ := hop
  rw [hself] at hop
  refine .same hold (by rw [hself]) (by rw [hself]) (by rw [hself]) ?_
  rw [hself]
  exact hacc i v op hold hop

/-- Only the phase of one thread changes. -/
theorem origins_setPhase {ph : Phase}
    (hthreads : s'.threads = Function.update s.threads w { s.threads w with phase := ph })
    (hnet : s'.net = s.net)
    (hcl : ∀ i, ph.cleared i = false → (s.threads w).phase.cleared i = false)
    (hacc : ∀ i v op, Carries s w i v → (s.threads w).txn.cold[i]? = some op →
      (i < ph.accessed (s.threads w).txn.cold.length ↔
        i < (s.threads w).phase.accessed (s.threads w).txn.cold.length)) : Origins c s s' :=
  origins_goOn hthreads hnet (fun i _ _ hact hget hf hc => .entry hact hget hf (hcl i hc)) hacc

theorem origins_enter (hc : Coupled c store₀ s a) (hphase : (s.threads w).phase = .idle) (txn : Txn)
    (mb : Option ℕ) : Origins c s (s.enter w txn mb) := by
  have hself : (s.enter w txn mb).threads w = ⟨.acquire 0, (s.threads w).seq + 1, txn, mb, []⟩ :=
    Function.update_self _ _ _
  have hno := (hc.own w).no_msg_of_idle hphase
  refine origins_of w (fun i v hv _ => ?_) (fun w' hw => Function.update_of_ne (Ne.symm hw) _ _)
    (fun p _ hp => hp)
  cases hv with
  | entry hact =>
    rw [hself, List.getElem?_nil] at hact
    cases hact
  | response hp hw => exact absurd hw (hno _ hp)
  | release hp hw => exact absurd hw (hno _ hp)

theorem origins_finish (hc : Coupled c store₀ s a) {rc : RC}
    (hphase : (s.threads w).phase = .waitPuts rc) (hputs : s.putResponses w = 0)
    (hthreads : s'.threads =
      Function.update s.threads w { s.threads w with phase := .idle, log := [] })
    (hnet : s'.net = s.net) : Origins c s s' := by
  refine origins_goOn hthreads hnet (fun i act f hact => ?_) (fun i v op hv hop => ?_)
  · rw [List.getElem?_nil] at hact
    cases hact
  · -- all locks are released, and all responses are there
    have hcl := (hc.own w).not_held_of_cleared hc.net hputs (hc.held_of_carries hv hop) rfl
    rw [hphase] at hcl
    cases hcl

theorem origins_awaitEnd {ph : Phase} {act : UndoAction} {f : TupleFuture}
    (hphase : (s.threads w).phase = .await i) (hact : (s.threads w).log[i]? = some act)
    (hget : act.future.get = some f) (hacc : ∀ n, ph.accessed n = 0) :
    Origins c s (s.setThread w
      { s.threads w with
        phase := ph, log := (s.threads w).log.set i { act with future := f } }) := by
  have hlt : i < (s.threads w).log.length := (List.getElem?_eq_some_iff.mp hact).1
  have hcl : ∀ j, (s.threads w).phase.cleared j = false := fun j => by rw [hphase]; rfl
  refine origins_goOn rfl rfl (fun j act' f' hact' hget' hf' _ => ?_) (fun j v op _ _ => ?_)
  · by_cases hj : j = i
    · subst hj
      obtain rfl := Option.some.inj ((List.getElem?_set_self hlt).symm.trans hact')
      obtain rfl := Option.some.inj ((get_get hget).symm.trans hget')
      exact .entry hact hget hf' (hcl j)
    · rw [List.getElem?_set_ne (Ne.symm hj)] at hact'
      exact .entry hact' hget' hf' (hcl j)
  · rw [hacc, hphase]
    rfl

/-- An access replaces the stamp if the call is one of `my_execute`. -/
theorem origins_access (hc : Coupled c store₀ s a) {act : UndoAction} {f g : TupleFuture}
    (hphase : (s.threads w).phase = .access i) (hact : (s.threads w).log[i]? = some act)
    (hget : act.future.get = some f) (hf : f.tuple = .row ∨ f.tuple = .packet)
    (hthreads : s'.threads = Function.update s.threads w (accessed (s.threads w) i act g))
    (hg : g.tuple = f.tuple) (hacq : g.lastAcq = f.lastAcq) (hnet : s'.net = s.net) :
    Origins c s s' := by
  have hlt : i < (s.threads w).log.length := (List.getElem?_eq_some_iff.mp hact).1
  have hcl : ∀ j, (s.threads w).phase.cleared j = false := fun j => by rw [hphase]; rfl
  have hself : s'.threads w = accessed (s.threads w) i act g := by
    rw [hthreads, Function.update_self]
  have hno := (hc.own w).no_msg (by rw [hphase]; rfl) (by rw [hphase]; exact nofun)
  refine origins_of w (fun j v hv _ => ?_)
    (fun w' hw => by rw [hthreads, Function.update_of_ne (Ne.symm hw)]) (fun p _ hp => hnet ▸ hp)
  cases hv with
  | @entry act' f' hact' hget' hf' _ =>
    rw [hself] at hact'
    by_cases hj : j = i
    · subst hj
      obtain rfl := Option.some.inj ((List.getElem?_set_self hlt).symm.trans hact')
      have hold : Carries s w j f.lastAcq :=
        .entry hact hget (by rcases hf with hf | hf <;> rw [hf] <;> exact nofun) (hcl j)
      have hgot : (stamp (s.threads w) g).get = some (stamp (s.threads w) g) := by
        rw [stamp_eq, TupleFuture.get, hg]
        rcases hf with hf | hf <;> rw [hf]
      obtain rfl := Option.some.inj (hgot.symm.trans hget')
      -- before the access the stamp is the one seen, after it the identifier or still that one
      refine .carried hold (by rw [hself]; rfl) (by rw [hself]; rfl) (by rw [hself]; rfl)
        fun seen hv => ?_
      rw [hself]
      simp only [due, hphase, accessed, Phase.accessed, stamp, Nat.lt_irrefl, and_false, ↓reduceIte,
        Nat.lt_succ_self, and_true] at hv ⊢
      split_ifs
      · rfl
      · exact hacq.trans hv
    · have hset := List.getElem?_set_ne (Ne.symm hj)
        (l := (s.threads w).log) (a := { act with future := stamp (s.threads w) g })
      have hacc : j < i + 1 ↔ j < i := by omega
      refine .same (.entry (hset.symm.trans hact') hget' hf' (hcl j)) (by rw [hself]; rfl)
        (by rw [hself]; rfl) (by rw [hself]; rfl) ?_
      rw [hself, hphase]
      exact hacc
  | response hp hw => exact absurd hw (hno _ (hnet ▸ hp))
  | release hp hw => exact absurd hw (hno _ (hnet ▸ hp))

theorem origins_lockLocal (hc : Coupled c store₀ s a) {row : Row}
    (hphase : (s.threads w).phase = .acquire i) (hop : (s.threads w).txn.cold[i]? = some op)
    (hlocal : op.locInfo.isLocal = true)
    (hacq : (s.rows (w.nid, op.id)).acquire op.mode (s.threads w).txn.id = some (some row))
    (hthreads : s'.threads = Function.update s.threads w
      { s.threads w with
        phase := .acquire (i + 1)
        log := (s.threads w).log ++ [localEntry op (s.rows (w.nid, op.id)).lastAcq] })
    (hnet : s'.net = s.net)
    (hhist : s'.history = s.history ++ [.lock (rowLock w (s.threads w) i op)]) :
    Origins c s s' := by
  have hth := (hc.own w).thread
  have hlen : (s.threads w).log.length = i := hth.len i (by rw [hphase]; rfl)
  have howner : c.owner op.id = w.nid := (hth.isLocal_iff hop).mp hlocal
  have hself := congrFun hthreads w
  rw [Function.update_self] at hself
  have hacc : ∀ n, (s.threads w).phase.accessed n = 0 := fun n => by rw [hphase]; rfl
  have hacc' : ∀ n, (s'.threads w).phase.accessed n = 0 := fun n => by rw [hself]; rfl
  refine origins_of w (fun j v hv _ => ?_)
    (fun w' hw => by rw [hthreads, Function.update_of_ne (Ne.symm hw)]) (fun p _ hp => hnet ▸ hp)
  have hsame : Carries s w j v → Origin c s s' w j v := fun hold =>
    .same hold (by rw [hself]) (by rw [hself]) (by rw [hself]) (by rw [hacc, hacc'])
  cases hv with
  | @entry act f hact hget hf _ =>
    rw [hself] at hact
    by_cases hj : j = i
    · subst hj
      obtain rfl : localEntry op (s.rows (w.nid, op.id)).lastAcq = act :=
        Option.some.inj ((hlen ▸ List.getElem?_concat_length).symm.trans hact)
      obtain rfl := Option.some.inj hget
      refine .taken hop hhist (howner ▸ hacq) (Or.inl rfl) ?_ (by rw [hphase]; exact nofun)
        (by rw [hself]) (by rw [hself]) (by rw [hself]) fun seen => ?_
      · rw [lastAcq, howner]
        rfl
      · rw [due, hacc']
        simp
    · have hold := (getElem?_concat_of_ne (hlen.symm ▸ hj)).symm.trans hact
      exact hsame (.entry hold hget hf (by rw [hphase]; rfl))
  | response hp hw hi htype hmode => exact hsame (.response (hnet ▸ hp) hw hi htype hmode)
  | release hp hw hi htype => exact hsame (.release (hnet ▸ hp) hw hi htype)

theorem origins_request (hc : Coupled c store₀ s a) {p : Packet}
    (hphase : (s.threads w).phase = .acquire i)
    (hthreads : s'.threads = Function.update s.threads w
      { s.threads w with phase := .await i, log := (s.threads w).log ++ [remoteEntry op] })
    (hnet : s'.net = p :: s.net) (hatt : p.msg.att.worker = w) (htype : p.msg.type = .tupleGetReq) :
    Origins c s s' := by
  have hlen : (s.threads w).log.length = i :=
    (hc.own w).thread.len i (by rw [hphase]; rfl)
  have hself := congrFun hthreads w
  rw [Function.update_self] at hself
  have hold : ∀ p' ∈ s'.net, p'.msg.type ≠ .tupleGetReq → p' ∈ s.net := fun p' hp' hne => by
    rcases List.mem_cons.mp (hnet ▸ hp') with rfl | hp'
    · exact absurd htype hne
    · exact hp'
  refine origins_of w (fun j v hv _ => .same (?_ : Carries s w j v) (by rw [hself]) (by rw [hself])
    (by rw [hself]) (by rw [hself, hphase]; rfl))
    (fun w' hw => by rw [hthreads, Function.update_of_ne (Ne.symm hw)]) (fun p' hw hp' => ?_)
  · cases hv with
    | @entry act f hact hget hf _ =>
      rw [hself] at hact
      by_cases hj : j = i
      · -- nothing has been answered yet
        subst hj
        obtain rfl : remoteEntry op = act :=
          Option.some.inj ((hlen ▸ List.getElem?_concat_length).symm.trans hact)
        cases hget
      · have hold := (getElem?_concat_of_ne (hlen.symm ▸ hj)).symm.trans hact
        exact .entry hold hget hf (by rw [hphase]; rfl)
    | response hp hw hi htype hmode =>
      exact .response (hold _ hp (by rw [htype]; exact nofun)) hw hi htype hmode
    | release hp hw hi htype =>
      exact .release (hold _ hp (by rw [htype]; exact nofun)) hw hi htype
  · rcases List.mem_cons.mp (hnet ▸ hp') with rfl | hp'
    · exact absurd hatt.symm hw
    · exact hp'

/-! ### Releases -/

/-- A thread that is about to release a row of its own node carries its stamp. -/
theorem Own.carries_local (ho : Own c s a w) {rc : RC} {act : UndoAction}
    (hphase : (s.threads w).phase = .clear rc j) (hact : (s.threads w).log[j]? = some act)
    (htarget : act.target = none) :
    ∃ op, (s.threads w).txn.cold[j]? = some op ∧ act.index = op.id ∧ c.owner op.id = w.nid ∧
      Carries s w j act.future.lastAcq := by
  obtain ⟨op, hop, hok, -⟩ := ho.clear_cases hphase hact
  have hlocal := hok.isLocal_of_target htarget
  have htuple := (hok.ofLocal hlocal).2.1
  refine ⟨op, hop, hok.index, (ho.thread.isLocal_iff hop).mp hlocal, .entry hact ?_ ?_ ?_⟩
  · rw [TupleFuture.get, htuple]
  · rw [htuple]
    simp
  · rw [hphase]
    exact decide_eq_false (Nat.lt_irrefl j)

/-- The response that is about to become a `TuplePutReq` is about the operation. -/
theorem Own.names_remote (ho : Own c s a w) {rc : RC} {target : ℕ} {act : UndoAction}
    {f : TupleFuture} {res : TupleMsg} (hphase : (s.threads w).phase = .clear rc j)
    (hact : (s.threads w).log[j]? = some act) (htarget : act.target = some target)
    (hget : act.future.get = some f) (hf : f.tuple ≠ .exception) (hpkt : f.pkt = some res) :
    res.att.worker = w ∧ res.op = j := by
  obtain ⟨op, hop, hok, -⟩ := ho.clear_cases hphase hact
  rcases (hok.ofRemote (hok.isRemote_of_target htarget)).2.get
    (mode_ne_invalid_of_cold hop) hget with
    ⟨hex, -⟩ | ⟨res', hres, hnames, -⟩
  · exact absurd hex hf
  · rw [hres] at hpkt
    obtain rfl := Option.some.inj hpkt
    exact ⟨congrArg Attempt.worker hnames.att, hnames.op⟩

theorem cleared_of_cleared_succ {rc : RC} {i j : ℕ} {ph : Phase} (hphase : ph = .clear rc j)
    (h : (Phase.clear rc (j + 1)).cleared i = false) : ph.cleared i = false := by
  have hlt : ¬i < j + 1 := of_decide_eq_false h
  rw [hphase]
  exact decide_eq_false (by omega)

theorem accessed_clear_succ {rc : RC} {j : ℕ} (n : ℕ) :
    (Phase.clear rc (j + 1)).accessed n = (Phase.clear rc j).accessed n := by
  cases rc <;> rfl

theorem origins_clearRemote {rc : RC} {act : UndoAction} {f : TupleFuture}
    {p : Packet} (hphase : (s.threads w).phase = .clear rc j)
    (hact : (s.threads w).log[j]? = some act) (hget : act.future.get = some f)
    (hf : f.tuple ≠ .exception)
    (hthreads : s'.threads =
      Function.update s.threads w { s.threads w with phase := .clear rc (j + 1) })
    (hnet : s'.net = p :: s.net) (hatt : p.msg.att.worker = w) (hj : p.msg.op = j)
    (htype : p.msg.type = .tuplePutReq) (hpack : p.msg.pack = f.lastAcq.getPacked) :
    Origins c s s' := by
  have hself := congrFun hthreads w
  rw [Function.update_self] at hself
  have hold : ∀ p' ∈ s'.net, p'.msg.type ≠ .tuplePutReq → p' ∈ s.net := fun p' hp' hne => by
    rcases List.mem_cons.mp (hnet ▸ hp') with rfl | hp'
    · exact absurd htype hne
    · exact hp'
  refine origins_of w (fun i v hv _ => .same (?_ : Carries s w i v) (by rw [hself]) (by rw [hself])
    (by rw [hself]) (by rw [hself, hphase, accessed_clear_succ]))
    (fun w' hw => by rw [hthreads, Function.update_of_ne (Ne.symm hw)]) (fun p' hw hp' => ?_)
  · cases hv with
    | entry hact' hget' hf' hcl' =>
      rw [hself] at hact' hcl'
      exact .entry hact' hget' hf' (cleared_of_cleared_succ hphase hcl')
    | response hp hw hi htype' hmode =>
      exact .response (hold _ hp (by rw [htype']; exact nofun)) hw hi htype' hmode
    | @release p' hp hw hi htype' =>
      rcases List.mem_cons.mp (hnet ▸ hp) with rfl | hp
      · -- the stamp goes from the log entry into the message
        subst hi
        rw [hpack, TxnId.ofPacked_getPacked]
        subst hj
        refine .entry hact hget hf ?_
        rw [hphase]
        exact decide_eq_false (Nat.lt_irrefl _)
      · exact .release hp hw hi htype'
  · rcases List.mem_cons.mp (hnet ▸ hp') with rfl | hp'
    · exact absurd hatt.symm hw
    · exact hp'

/-! ### Handlers -/

section Handlers
variable {p : Packet} {m : TupleMsg} {dst : ℕ}

/-- A message that carries no stamp takes the place of another. -/
theorem origins_reply (hthreads : s'.threads = s.threads)
    (hnet : ∀ p' ∈ s'.net, p' ∈ s.net ∨ p'.msg.type = .tuplePutRes ∨
      p'.msg.type = .tupleGetRes ∧ p'.msg.mode = .invalid) : Origins c s s' := by
  intro w i v hv _
  have hth := congrFun hthreads w
  refine .same (?_ : Carries s w i v) (by rw [hth]) (by rw [hth]) (by rw [hth]) (by rw [hth])
  cases hv with
  | entry hact hget hf hcl =>
    rw [hth] at hact hcl
    exact .entry hact hget hf hcl
  | response hp hw hi htype hmode =>
    rcases hnet _ hp with hp | hput | ⟨-, hinv⟩
    · exact .response hp hw hi htype hmode
    · exact nomatch hput.symm.trans htype
    · exact absurd hinv hmode
  | release hp hw hi htype =>
    rcases hnet _ hp with hp | hput | ⟨hget, -⟩
    · exact .release hp hw hi htype
    · exact nomatch hput.symm.trans htype
    · exact nomatch hget.symm.trans htype

theorem origins_getReqGranted (hc : Coupled c store₀ s a) {row : Row} (hp : p ∈ s.net)
    (htype : p.msg.type = .tupleGetReq)
    (hacq : (s.rows (p.dst, p.msg.rid)).acquire p.msg.mode (TxnId.ofPacked p.msg.pack) =
      some (some row))
    (hthreads : s'.threads = s.threads) (hnet : s'.net = ⟨dst, m⟩ :: s.net.erase p)
    (hatt : m.att = p.msg.att) (hmop : m.op = p.msg.op) (hmtype : m.type = .tupleGetRes)
    (hpack : m.pack = (s.rows (p.dst, p.msg.rid)).lastAcq.getPacked)
    (hhist : s'.history = s.history ++ [.lock p.msg.rowLock]) : Origins c s s' := by
  obtain ⟨op, act, hmsg⟩ := (hc.own p.msg.att.worker).msg p hp rfl
  obtain ⟨hdst, hmode, -⟩ := hmsg.getReq htype
  obtain ⟨hphase, -⟩ := hmsg.waiting (by rw [htype]; rfl)
  have hself := congrFun hthreads p.msg.att.worker
  rw [hdst, hmsg.rid] at hacq hpack
  rw [hmode] at hacq
  rw [hmsg.rowLock_eq hmode] at hhist
  have hold : ∀ p' ∈ s'.net, p' ≠ ⟨dst, m⟩ → p' ∈ s.net := fun p' hp' hne =>
    List.mem_of_mem_erase ((List.mem_cons.mp (hnet ▸ hp')).resolve_left hne)
  refine origins_of p.msg.att.worker (fun j v hv _ => ?_) (fun w' _ => congrFun hthreads w')
    (fun p' hw hp' => hold p' hp' ?_)
  · have hsame : Carries s p.msg.att.worker j v → Origin c s s' p.msg.att.worker j v := fun hcar =>
      .same hcar (by rw [hself]) (by rw [hself]) (by rw [hself]) (by rw [hself])
    cases hv with
    | entry hact hget hf hcl =>
      rw [hself] at hact hcl
      exact hsame (.entry hact hget hf hcl)
    | @response p' hp' hw hi htype' hmode' =>
      by_cases heq : p' = ⟨dst, m⟩
      · -- the stamp begins to travel
        subst heq
        have hj : j = p.msg.op := hi.symm.trans hmop
        subst hj
        refine .taken hmsg.op_eq hhist hacq (Or.inr ⟨p, hp, rfl, htype, rfl⟩) ?_
          (by rw [hphase]; exact nofun) (by rw [hself]) (by rw [hself])
          (by rw [hself]) fun seen => ?_
        · show TxnId.ofPacked m.pack = _
          rw [hpack, TxnId.ofPacked_getPacked]
          rfl
        · rw [due, hself, hphase]
          simp [Phase.accessed]
      · exact hsame (.response (hold p' hp' heq) hw hi htype' hmode')
    | @release p' hp' hw hi htype' =>
      refine hsame (.release (hold p' hp' ?_) hw hi htype')
      rintro rfl
      exact nomatch hmtype.symm.trans htype'
  · rintro rfl
    exact hw (congrArg Attempt.worker hatt).symm

/-- A response arrives: its stamp goes into the future. -/
theorem origins_getRes (hc : Coupled c store₀ s a) {tid : ℕ} (hp : p ∈ s.net)
    (htype : p.msg.type = .tupleGetRes)
    (hfut : s.openFutures (p.dst, p.msg.msgId) = some (tid, i))
    (hthreads : s'.threads = Function.update s.threads ⟨p.dst, tid⟩
      { s.threads ⟨p.dst, tid⟩ with
        log := (s.threads ⟨p.dst, tid⟩).log.modify i fun act =>
          { act with future := act.future.setPkt p.msg } })
    (hnet : s'.net = s.net.erase p) : Origins c s s' := by
  obtain ⟨op, act, hmsg⟩ := (hc.own p.msg.att.worker).msg p hp rfl
  obtain ⟨hdst, hans⟩ := hmsg.getRes htype
  obtain ⟨hphase, hpkt, htuple, hfut'⟩ := hmsg.waiting (by rw [htype]; rfl)
  rw [hdst] at hfut hthreads
  obtain ⟨rfl, rfl⟩ := Prod.mk.inj (Option.some.inj (hfut.symm.trans hfut'))
  have hw : (⟨p.msg.att.worker.nid, p.msg.att.worker.tid⟩ : NodeT) = p.msg.att.worker := rfl
  rw [hw] at hthreads
  have hself := congrFun hthreads p.msg.att.worker
  rw [Function.update_self] at hself
  have hold : ∀ p' ∈ s'.net, p' ∈ s.net := fun p' hp' => List.mem_of_mem_erase (hnet ▸ hp')
  refine origins_of p.msg.att.worker
    (fun j v hv _ => .same (?_ : Carries s p.msg.att.worker j v) (by rw [hself]) (by rw [hself])
      (by rw [hself]) (by rw [hself]))
    (fun w' hw => by rw [hthreads, Function.update_of_ne (Ne.symm hw)]) (fun p' _ => hold p')
  cases hv with
  | @entry act' f hact hget hf hcl =>
    rw [hself] at hact hcl
    by_cases hj : p.msg.op = j
    · subst hj
      rw [List.getElem?_modify_eq, hmsg.act_eq] at hact
      obtain rfl := Option.some.inj hact
      rw [setPkt_get htuple] at hget
      obtain rfl := Option.some.inj hget
      split_ifs at hf ⊢ with hmode
      · exact absurd rfl hf
      · exact .response hp rfl rfl htype hmode
    · rw [List.getElem?_modify_ne _ _ hj] at hact
      exact .entry hact hget hf hcl
  | response hp' hw hi htype' hmode => exact .response (hold _ hp') hw hi htype' hmode
  | release hp' hw hi htype' => exact .release (hold _ hp') hw hi htype'

end Handlers

/-- **Where stamps come from**, for every move. -/
theorem origin_of_move (hc : Coupled c store₀ s a) {action : Action} (hmove : Move c s action s') :
    Origins c s s' := by
  cases hmove with
  | enter hphase => exact origins_enter hc hphase _ _
  | endAcquire hphase | refuse hphase | alloc hphase =>
    exact origins_setPhase rfl rfl (fun i _ => by rw [hphase]; rfl) fun i v op _ _ => by
      rw [hphase]; rfl
  | lockLocal hphase hop hlocal hacq =>
    exact origins_lockLocal hc hphase hop hlocal hacq rfl rfl rfl
  | request hphase => exact origins_request hc hphase rfl rfl rfl rfl
  | awaitRefused hphase hact hget | awaitGranted hphase hact hget =>
    exact origins_awaitEnd hphase hact hget fun _ => rfl
  | toAlloc hphase hop | commit hphase hop =>
    refine origins_setPhase rfl rfl (fun i _ => by rw [hphase]; rfl) fun i v op _ hop' => ?_
    have hle := List.getElem?_eq_none_iff.mp hop
    have hlt := (List.getElem?_eq_some_iff.mp hop').1
    rw [hphase]
    exact iff_of_true hlt (Nat.lt_of_lt_of_le hlt hle)
  | writeRow hphase hop hact hget hf | readRow hphase hop hact hget hf =>
    exact origins_access hc hphase hact hget (Or.inl hf) rfl rfl rfl rfl
  | writePacket hphase hop hact hget hf | readPacket hphase hop hact hget hf =>
    exact origins_access hc hphase hact hget (Or.inr hf) rfl rfl rfl rfl
  | @accessNull w i op act f _ hphase hop hact hget hf =>
    exact absurd hf ((hc.own w).access_ne_null hphase hop hact hget)
  | @endClear w rc j _ hphase =>
    refine origins_setPhase rfl rfl nofun fun i v op _ _ => ?_
    rw [hphase]
    cases rc <;> rfl
  | clearLocal hphase | clearSkip hphase =>
    exact origins_setPhase rfl rfl (fun i => cleared_of_cleared_succ hphase) fun i v op _ _ => by
      rw [hphase, accessed_clear_succ]
  | @clearRemote w rc j act target f res _ hphase hact htarget hget hf hpkt =>
    obtain ⟨hatt, hop⟩ := (hc.own w).names_remote hphase hact htarget hget hf hpkt
    exact origins_clearRemote hphase hact hget hf rfl rfl hatt hop rfl rfl
  | finish hphase hputs => exact origins_finish hc hphase hputs rfl rfl
  | getReqRefused =>
    refine origins_reply rfl fun p' hp' => ?_
    rcases List.mem_cons.mp hp' with rfl | hp'
    · exact Or.inr (Or.inr ⟨rfl, rfl⟩)
    · exact Or.inl (List.mem_of_mem_erase hp')
  | getReqGranted hp htype hacq =>
    exact origins_getReqGranted hc hp htype hacq rfl rfl rfl rfl rfl rfl rfl
  | getRes hp htype hfut => exact origins_getRes hc hp htype hfut rfl rfl
  | putReq =>
    refine origins_reply rfl fun p' hp' => ?_
    rcases List.mem_cons.mp hp' with rfl | hp'
    · exact Or.inr (Or.inl rfl)
    · exact Or.inl (List.mem_of_mem_erase hp')
  | putRes => exact origins_reply rfl fun p' hp' => Or.inl (List.mem_of_mem_erase hp')
  | doneSending => exact origins_reply rfl fun p' hp' => Or.inl hp'

/-! ### Where a stamp goes -/

/-- Only a release changes the stamp of a row. -/
theorem lastAcq_of_locks {k : DbKey}
    (h : (∃ l, Grants c s s' l) ∨ (∃ l, Releases c s s' l) ∨ KeepsLocks c s s') :
    s'.lastAcq c k = s.lastAcq c k ∨ ∃ l, Releases c s s' l ∧ l.item = k := by
  unfold lastAcq
  rcases h with ⟨l, hg⟩ | ⟨l, hr⟩ | hk
  · left
    by_cases hk : l.item = k
    · rw [← hk, hg.row]
    · rw [hg.others _ fun heq => hk (Prod.mk.inj heq).2.symm]
  · by_cases hk : l.item = k
    · exact Or.inr ⟨l, hr, hk⟩
    · exact Or.inl (by rw [hr.others _ fun heq => hk (Prod.mk.inj heq).2.symm])
  · exact Or.inl (by rw [hk.rows])

/-- **A release writes the stamp that travels with its lock.** -/
theorem lastAcq_of_releases (hc : Coupled c store₀ s a) {action : Action} {l : RowLock}
    (hmove : Move c s action s') (hrel : Releases c s s' l) :
    ∃ op, (s.threads l.txn.worker).txn.cold[l.op]? = some op ∧
      l = rowLock l.txn.worker (s.threads l.txn.worker) l.op op ∧
      Carries s l.txn.worker l.op (s'.lastAcq c l.item) ∧
      ((s.threads l.txn.worker).phase.rolledBack = true ∨
        (s.threads l.txn.worker).phase.committed = true) := by
  have hhist := hrel.history
  cases hmove with
  | @clearLocal w rc j act row _ hphase hact htarget hput =>
    obtain rfl := Event.unlock.inj (List.append_singleton_inj.mp hhist).2
    obtain ⟨op, hop, hok, -⟩ := (hc.own w).clear_cases hphase hact
    obtain ⟨op', hop', hindex, howner, hcar⟩ := (hc.own w).carries_local hphase hact htarget
    obtain rfl := Option.some.inj (hop.symm.trans hop')
    have hend : (s.threads w).phase.rolledBack = true ∨ (s.threads w).phase.committed = true := by
      rw [hphase]
      cases rc
      · exact Or.inr rfl
      · exact Or.inl rfl
    have hrow : row.lastAcq = act.future.lastAcq := by
      have := Row.lastAcq_localUnlock (s.rows (w.nid, act.index)) act.mode act.future.lastAcq
      rwa [hput] at this
    refine ⟨op, hop, by rw [rowLock, hindex, hok.mode]; rfl, ?_, hend⟩
    rw [lastAcq_update_self rfl (hindex ▸ howner.symm), hrow]
    exact hcar
  | @putReq p hp htype =>
    obtain rfl := Event.unlock.inj (List.append_singleton_inj.mp hhist).2
    obtain ⟨op, act, hmsg⟩ := (hc.own p.msg.att.worker).msg p hp rfl
    obtain ⟨hdst, hmode, -⟩ := hmsg.putReq htype
    refine ⟨op, hmsg.op_eq, hmsg.rowLock_eq hmode, ?_,
      Phase.rolledBack_or_committed (hmsg.releasing (by rw [htype]; rfl)).1⟩
    refine (congrArg (Carries s _ _) ?_).mpr (.release hp rfl rfl htype)
    refine (lastAcq_update_self rfl ?_).trans (Row.lastAcq_remoteUnlock _ _ _ _)
    exact hdst.trans (congrArg c.owner hmsg.rid.symm)
  | lockLocal | commit | writeRow | readRow | writePacket | readPacket | alloc | getReqGranted =>
    exact absurd (List.append_singleton_inj.mp hhist).2 (by simp)
  | enter | endAcquire | refuse | request | awaitRefused | awaitGranted | toAlloc
  | accessNull | endClear
  | clearSkip | clearRemote | finish | getReqRefused | getRes | putRes | doneSending =>
    exact absurd (List.self_eq_append_right.mp hhist) (List.cons_ne_nil _ _)

end System

end P4db
