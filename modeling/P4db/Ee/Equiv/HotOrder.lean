import P4db.Ee.Equiv.Database
import P4db.Ee.Equiv.Effects

/-!
# The hot order extends the cold order

The switch executes the hot operations of a batch after the cold ones, mini-batch by mini-batch, and
those of one node in the order of its hot send queue.  For this to be a serial order of whole
transactions, a transaction that hands a cold row on to another must come first there too.

`Disciplined` is what the loop of `txn_executor` with its barriers guarantees: a mini-batch starts
after all transactions of the one before have returned on every node, and a queue is emptied between
mini-batches.  In every run of this kind with write operations only,

* `hot_order_extends_cold_order`: if a committed transaction of `my_execute` releases a row before
  another one locks it, it is of an earlier mini-batch, or of the same mini-batch and node and has
  the smaller index in the queue; and the assertion of `mb_allow_lock` never fails.

The stamps give the order of mini-batches and nodes (`Stamped`).  The order in the queue holds
because the slot is taken before the first release and after the last lock (`SlotsOk.ordered`).
-/

namespace P4db.System

open TwoPhase Transition

/-! ### Runs in mini-batches -/

/-- The call has returned. -/
def Finished (s : System) (t : Attempt) : Prop := t ∈ s.finished.map Prod.fst

/-- The call is one of `my_execute` in this mini-batch. -/
def InBatch (s : System) (t : Attempt) (m : ℕ) : Prop :=
  (t, some m) ∈ s.started.map fun e => (e.1, e.2.2)

/-- The call is one of `my_execute` with this identifier. -/
def Ident (s : System) (t : Attempt) (id : TxnId) : Prop :=
  ∃ txn m, (t, txn, some m) ∈ s.started ∧ txn.id = id

instance (s : System) (t : Attempt) : Decidable (s.Finished t) :=
  inferInstanceAs (Decidable (t ∈ s.finished.map Prod.fst))

instance (s : System) (t : Attempt) (m : ℕ) : Decidable (s.InBatch t m) :=
  inferInstanceAs (Decidable ((t, some m) ∈ s.started.map fun e => (e.1, e.2.2)))

/-- All operations are writes; a mini-batch starts when all calls of earlier mini-batches have
returned, and on a node not after the queue with its transactions has been emptied; a queue is
emptied when all calls of its node have returned. -/
def Disciplined (s : System) : Action → Prop
  | .start w txn mb => (∀ op ∈ txn.cold, op.mode = .write) ∧ ∀ m ∈ mb,
      (∀ e ∈ s.started, ∀ m' ∈ e.2.2, m' ≤ m ∧ (m' < m → s.Finished e.1)) ∧
      ∀ e ∈ s.slots, e.1.worker.nid = w.nid → e.2.1 < s.batch w.nid → ¬s.InBatch e.1 m
  | .doneSending n => ∀ e ∈ s.started, e.1.worker.nid = n → e.2.2 ≠ none → s.Finished e.1
  | _ => True

/-- The slots in the queues: a committed call of `my_execute` has one, and those of a node are taken
in increasing order. -/
structure SlotsOk (s : System) : Prop where
  nodup : (s.slots.map Prod.fst).Nodup
  committed : ∀ e ∈ s.slots, Committed s.history e.1
  has_slot : ∀ t m, s.InBatch t m → Committed s.history t → t ∈ s.slots.map Prod.fst
  below : ∀ e ∈ s.slots, e.2.1 ≤ s.batch e.1.worker.nid ∧
    (e.2.1 = s.batch e.1.worker.nid → e.2.2 < (s.hotSendQ e.1.worker.nid).sendQTail)
  entry : ∀ e ∈ s.slots, e.2.1 = s.batch e.1.worker.nid →
    ((s.hotSendQ e.1.worker.nid).sendQ e.2.2).txn = e.1
  emptied : ∀ e ∈ s.slots, e.2.1 < s.batch e.1.worker.nid →
    ∀ t m, t.worker.nid = e.1.worker.nid → ¬s.Finished t → s.InBatch e.1 m → ¬s.InBatch t m
  one_queue : ∀ e ∈ s.slots, ∀ e' ∈ s.slots, e.1.worker.nid = e'.1.worker.nid →
    ∀ m, s.InBatch e.1 m → s.InBatch e'.1 m → e.2.1 = e'.2.1
  ordered : ∀ l l', [.unlock l, .lock l'].Sublist s.history → ∀ e ∈ s.slots, ∀ e' ∈ s.slots,
    e.1 = l.txn → e'.1 = l'.txn → e.1.worker.nid = e'.1.worker.nid →
    e.2.1 < e'.2.1 ∨ e.2.1 = e'.2.1 ∧ e.2.2 < e'.2.2

/-- What holds in every state of a disciplined run. -/
structure Ordered (c : Config) (s : System) : Prop where
  calls : CallsOk s
  stamps : StampsOk c s
  pending : ∀ w, Pending s w → ¬Committed s.history (s.attempt w)
  origin : ∀ k, s.lastAcq c k = TxnId.ofFields true 0 0 ∨ ∃ t, s.Ident t (s.lastAcq c k)
  stamped : Stamped s.history s.Ident (s.lastAcq c)
  batches : ∀ t t' m m', s.InBatch t m → s.InBatch t' m' → m < m' → s.Finished t
  slots : SlotsOk s

variable {c : Config} {s s' : System} {a : Ledger} {w : NodeT} {store₀ : DbKey → BitVec 32}
  {action : Action} {t : Attempt} {m : ℕ}

/-! ### Calls -/

theorem finished_iff : s.Finished t ↔ ∃ rc, (t, rc) ∈ s.finished := by
  simp [Finished]

theorem inBatch_iff : s.InBatch t m ↔ ∃ txn, (t, txn, some m) ∈ s.started := by
  simp [InBatch]

theorem inBatch_cons {txn : Txn} {mb : Option ℕ} {t' : Attempt}
    (hstart : s'.started = (t', txn, mb) :: s.started) :
    s'.InBatch t m ↔ t = t' ∧ mb = some m ∨ s.InBatch t m := by
  rw [InBatch, hstart, List.map_cons, List.mem_cons, Prod.mk.injEq, eq_comm (a := some m)]
  rfl

theorem ident_cons {txn : Txn} {mb : Option ℕ} {t' : Attempt} {id : TxnId}
    (hstart : s'.started = (t', txn, mb) :: s.started) (h : s'.Ident t id) :
    t = t' ∨ s.Ident t id := by
  obtain ⟨txn', m, hmem, hid⟩ := h
  rw [hstart] at hmem
  rcases List.mem_cons.mp hmem with heq | hmem
  · exact Or.inl (congrArg Prod.fst heq)
  · exact Or.inr ⟨txn', m, hmem, hid⟩

theorem Ident.mono {id : TxnId} (h : s.Ident t id) (hsub : ∀ e ∈ s.started, e ∈ s'.started) :
    s'.Ident t id := by
  obtain ⟨txn, m, hmem, hid⟩ := h
  exact ⟨txn, m, hsub _ hmem, hid⟩

/-- The call a thread is in. -/
theorem Recorded.ident (hr : Recorded s) (hne : (s.threads w).phase ≠ .idle)
    (hmb : (s.threads w).miniBatchNum ≠ none) : s.Ident (s.attempt w) (s.threads w).txn.id := by
  obtain ⟨m, hm⟩ := Option.ne_none_iff_exists'.mp hmb
  have hcur := hr.current w hne
  rw [hm] at hcur
  exact ⟨_, m, hcur, rfl⟩

theorem Recorded.ident_eq (hr : Recorded s) (hne : (s.threads w).phase ≠ .idle) {id : TxnId}
    (h : s.Ident (s.attempt w) id) :
    id = (s.threads w).txn.id ∧ (s.threads w).miniBatchNum ≠ none := by
  obtain ⟨txn, m, hmem, rfl⟩ := h
  obtain ⟨-, heq⟩ := Prod.mk.inj (hr.unique hmem (hr.current w hne) rfl)
  obtain ⟨rfl, hmb⟩ := Prod.mk.inj heq
  exact ⟨rfl, by rw [← hmb]; exact nofun⟩

theorem Recorded.not_finished (hr : Recorded s) (hne : (s.threads w).phase ≠ .idle) :
    ¬s.Finished (s.attempt w) := by
  rw [finished_iff]
  rintro ⟨rc, hmem⟩
  exact hne ((hr.returned _ hmem).2 rfl)

/-- Nothing has happened under the number of the next call. -/
theorem Coupled.fresh (hc : Coupled c store₀ s a) (w : NodeT) :
    ∀ e ∈ s.history, e.txn ≠ ⟨w, (s.threads w).seq + 1⟩ := by
  intro e he heq
  have hle := (hc.own w).thread.fresh e (hc.history ▸ he) (by rw [heq])
  rw [heq] at hle
  exact Nat.not_succ_le_self _ hle

theorem Ongoing.attempt (h : Ongoing s s') (w : NodeT) : s'.attempt w = s.attempt w := by
  rw [System.attempt, (h.threads w).seq, System.attempt]

theorem Ongoing.pending (h : Ongoing s s') (hp : Pending s' w) : Pending s w := by
  refine ⟨(h.threads w).idle.not.mp hp.running, ?_⟩
  by_contra hcom
  have hcom' := (h.threads w).committed ((Bool.not_eq_false _).mp hcom)
  exact Bool.noConfusion (hp.committed.symm.trans hcom')

theorem Ongoing.inBatch (h : Ongoing s s') : s'.InBatch t m ↔ s.InBatch t m := by
  rw [InBatch, h.started, InBatch]

theorem Ongoing.ident (h : Ongoing s s') : s'.Ident = s.Ident := by
  funext t id
  rw [Ident, h.started, Ident]

theorem Ongoing.finished_iff (h : Ongoing s s') : s'.Finished t ↔ s.Finished t := by
  rw [Finished, h.finished, Finished]

/-! ### Commits -/

theorem CallsOk.of_effect (h : CallsOk s) (hd : Disciplined s action)
    (heff : Effect c s action s') : CallsOk s' := by
  have hsame : s'.started = s.started → CallsOk s' := fun hstart =>
    ⟨hstart ▸ h.write, hstart ▸ h.ident⟩
  cases heff with
  | enter _ hid hstart =>
    refine ⟨fun e he => ?_, fun e he => ?_⟩
    · rcases List.mem_cons.mp (hstart ▸ he) with rfl | he
      · exact hd.1
      · exact h.write e he
    · rcases List.mem_cons.mp (hstart ▸ he) with rfl | he
      · exact hid
      · exact h.ident e he
  | finish hstart => exact hsame hstart
  | doneSending hgo => exact hsame hgo.started
  | silent hgo => exact hsame hgo.started
  | access hgo => exact hsame hgo.started
  | lock hgo => exact hsame hgo.started
  | commit hgo => exact hsame hgo.started
  | alloc hgo => exact hsame hgo.started
  | unlock hgo => exact hsame hgo.started

section Pending
variable (h : ∀ w, Pending s w → ¬Committed s.history (s.attempt w))
include h

theorem pending_of_ongoing (hgo : Ongoing s s') (hhist : s'.history = s.history) :
    ∀ w, Pending s' w → ¬Committed s'.history (s'.attempt w) := by
  intro w hp
  rw [hhist, hgo.attempt]
  exact h w (hgo.pending hp)

theorem pending_concat (hgo : Ongoing s s') {e : Event Attempt DbKey (BitVec 32)}
    (hhist : s'.history = s.history ++ [e]) (he : ∀ w, Pending s' w → e ≠ .commit (s.attempt w)) :
    ∀ w, Pending s' w → ¬Committed s'.history (s'.attempt w) := by
  intro w hp hcom
  rw [hhist, hgo.attempt] at hcom
  rcases committed_concat.mp hcom with hold | heq
  · exact h w (hgo.pending hp) hold
  · exact he w hp heq

/-- The thread that commits is no longer pending. -/
theorem pending_commit (hgo : Ongoing s s')
    (hhist : s'.history = s.history ++ [.commit (s.attempt w)])
    (hcom : (s'.threads w).phase.committed = true) :
    ∀ w, Pending s' w → ¬Committed s'.history (s'.attempt w) := by
  refine pending_concat h hgo hhist fun w' hp heq => ?_
  obtain rfl : w = w' := congrArg Attempt.worker (Event.commit.inj heq)
  exact Bool.noConfusion (hp.committed.symm.trans hcom)

theorem pending_of_effect (hc : Coupled c store₀ s a) (heff : Effect c s action s') :
    ∀ w, Pending s' w → ¬Committed s'.history (s'.attempt w) := by
  cases heff with
  | @enter s' w txn mb id _ _ _ _ hseq hother _ hhist =>
    intro w' hp hcom
    rw [hhist] at hcom
    by_cases hw : w' = w
    · subst hw
      exact hc.fresh w' _ hcom (by rw [Event.txn, attempt, hseq])
    · have hth := hother w' hw
      refine h w' ⟨hth ▸ hp.running, hth ▸ hp.committed⟩ ?_
      rwa [attempt, hth] at hcom
  | @finish action s' w rc _ _ hphase hother _ hhist =>
    intro w' hp hcom
    rw [hhist] at hcom
    by_cases hw : w' = w
    · subst hw
      exact hp.running hphase
    · have hth := hother w' hw
      refine h w' ⟨hth ▸ hp.running, hth ▸ hp.committed⟩ ?_
      rwa [attempt, hth] at hcom
  | doneSending hgo hhist => exact pending_of_ongoing h hgo hhist
  | silent hgo _ hhist => exact pending_of_ongoing h hgo hhist
  | access hgo _ hhist _ he => exact pending_concat h hgo hhist fun w _ heq => he (heq ▸ rfl)
  | lock hgo _ hhist => exact pending_concat h hgo hhist (by simp)
  | commit hgo _ hhist _ _ hcom => exact pending_commit h hgo hhist hcom
  | alloc hgo hhist _ _ hcom => exact pending_commit h hgo hhist hcom
  | unlock hgo _ hhist => exact pending_concat h hgo hhist (by simp)

end Pending

/-! ### Stamps -/

theorem origin_of_effect
    (h : ∀ k, s.lastAcq c k = TxnId.ofFields true 0 0 ∨ ∃ t, s.Ident t (s.lastAcq c k))
    (hr : Recorded s) (heff : Effect c s action s') (k : DbKey) :
    s'.lastAcq c k = TxnId.ofFields true 0 0 ∨ ∃ t, s'.Ident t (s'.lastAcq c k) := by
  have hsame : s'.lastAcq c k = s.lastAcq c k → (∀ e ∈ s.started, e ∈ s'.started) →
      s'.lastAcq c k = TxnId.ofFields true 0 0 ∨ ∃ t, s'.Ident t (s'.lastAcq c k) := by
    intro hlast hsub
    rw [hlast]
    exact (h k).imp_right fun ⟨t, ht⟩ => ⟨t, ht.mono hsub⟩
  cases heff with
  | enter _ _ hstart _ _ _ _ _ hlast =>
    exact hsame (congrFun hlast k) fun e he => hstart ▸ List.mem_cons_of_mem _ he
  | finish hstart _ _ _ _ _ hlast => exact hsame (congrFun hlast k) fun e he => hstart ▸ he
  | doneSending hgo _ hlast => exact hsame (congrFun hlast k) fun e he => hgo.started ▸ he
  | silent hgo _ _ hlast => exact hsame (congrFun hlast k) fun e he => hgo.started ▸ he
  | access hgo _ _ hlast => exact hsame (congrFun hlast k) fun e he => hgo.started ▸ he
  | lock hgo _ _ hlast => exact hsame (congrFun hlast k) fun e he => hgo.started ▸ he
  | commit hgo _ _ hlast => exact hsame (congrFun hlast k) fun e he => hgo.started ▸ he
  | alloc hgo _ hlast => exact hsame (congrFun hlast k) fun e he => hgo.started ▸ he
  | @unlock action s' w l hgo _ _ hl hphase hne hstamp =>
    by_cases hk : k = l.item
    · subst hk
      split_ifs at hstamp with hown
      · rw [hstamp, hgo.ident]
        exact Or.inr ⟨_, hr.ident hphase hown.1⟩
      · exact hsame hstamp fun e he => hgo.started ▸ he
    · exact hsame (hne k hk) fun e he => hgo.started ▸ he

/-- The stamp of a row does not decrease. -/
theorem lastAcq_le_of_unlock {l : RowLock} (hne : ∀ k, k ≠ l.item → s'.lastAcq c k = s.lastAcq c k)
    (hstamp : s'.lastAcq c l.item =
      if (s.threads w).miniBatchNum ≠ none ∧ (s.threads w).phase.committed = true
      then (s.threads w).txn.id else s.lastAcq c l.item)
    (hle : (s.threads w).miniBatchNum ≠ none → s.lastAcq c l.item ≤ (s.threads w).txn.id)
    (k : DbKey) : s.lastAcq c k ≤ s'.lastAcq c k := by
  by_cases hk : k = l.item
  · subst hk
    rw [hstamp]
    split_ifs with hown
    · exact hle hown.1
    · exact le_refl _
  · exact le_of_eq (hne k hk).symm

theorem stamped_of_effect (h : Ordered c s) (hc : Coupled c store₀ s a) (hr : Recorded s)
    (heff : Effect c s action s') : Stamped s'.history s'.Ident (s'.lastAcq c) := by
  have hs := h.stamped
  cases heff with
  | enter _ _ hstart _ _ _ _ hhist hlast =>
    rw [hhist, hlast]
    refine hs.own_mono fun t id hid => ?_
    rcases ident_cons hstart hid with rfl | hold
    · exact Or.inr (hc.fresh _)
    · exact Or.inl hold
  | finish hstart _ _ _ _ hhist hlast =>
    rw [hhist, hlast]
    exact hs.own_mono fun t id hid => Or.inl (hid.mono fun e he => hstart ▸ he)
  | doneSending hgo hhist hlast =>
    rw [hhist, hlast, hgo.ident]
    exact hs
  | silent hgo _ hhist hlast =>
    rw [hhist, hlast, hgo.ident]
    exact hs
  | access hgo _ hhist hlast he =>
    rw [hhist, hlast, hgo.ident]
    exact hs.concat (fun _ => le_refl _) (fun l _ heq => absurd (heq ▸ rfl) he)
      (fun t heq => absurd (heq ▸ rfl) he) (fun l _ heq => absurd (heq ▸ rfl) he)
  | lock hgo _ hhist hlast hl hpend hle =>
    rw [hhist, hlast, hgo.ident]
    refine hs.concat (fun _ => le_refl _) (fun l' id heq hid => ?_) nofun nofun
    obtain rfl := Event.lock.inj heq
    rw [hl] at hid
    obtain ⟨rfl, hmb⟩ := hr.ident_eq hpend.running hid
    exact hle hmb
  | commit hgo _ hhist hlast _ _ hrel =>
    rw [hhist, hlast, hgo.ident]
    exact hs.concat (fun _ => le_refl _) nofun (fun t heq => Event.commit.inj heq ▸ hrel) nofun
  | alloc hgo hhist hlast _ _ hrel =>
    rw [hhist, hlast, hgo.ident]
    exact hs.concat (fun _ => le_refl _) nofun (fun t heq => Event.commit.inj heq ▸ hrel) nofun
  | @unlock action s' w l hgo _ hhist hl hphase hne hstamp hle =>
    rw [hhist, hgo.ident]
    refine hs.concat (lastAcq_le_of_unlock hne hstamp hle) nofun nofun fun l' id heq hcom hid => ?_
    obtain rfl := Event.unlock.inj heq
    rw [hl] at hcom hid
    obtain ⟨rfl, hmb⟩ := hr.ident_eq hphase hid
    -- a call that has committed leaves its own stamp
    have hph : (s.threads w).phase.committed = true := by
      by_contra hno
      exact h.pending w ⟨hphase, (Bool.not_eq_true _).mp hno⟩ hcom
    rw [hstamp, if_pos ⟨hmb, hph⟩]

/-! ### Mini-batches -/

theorem batches_of_effect
    (h : ∀ t t' m m', s.InBatch t m → s.InBatch t' m' → m < m' → s.Finished t)
    (hd : Disciplined s action) (heff : Effect c s action s') :
    ∀ t t' m m', s'.InBatch t m → s'.InBatch t' m' → m < m' → s'.Finished t := by
  have hsame : Ongoing s s' →
      ∀ t t' m m', s'.InBatch t m → s'.InBatch t' m' → m < m' → s'.Finished t := by
    intro hgo t t' m m' ht ht' hlt
    exact hgo.finished_iff.mpr (h t t' m m' (hgo.inBatch.mp ht) (hgo.inBatch.mp ht') hlt)
  cases heff with
  | @enter s' w txn mb id _ _ hstart hfin =>
    intro t t' m m' ht ht' hlt
    rw [Finished, hfin]
    rcases (inBatch_cons hstart).mp ht with ⟨rfl, rfl⟩ | ht <;>
      rcases (inBatch_cons hstart).mp ht' with ⟨rfl, hmb⟩ | ht'
    · exact absurd (Option.some.inj hmb) (Nat.ne_of_lt hlt)
    · -- no call of a later mini-batch has begun
      obtain ⟨txn', hmem⟩ := inBatch_iff.mp ht'
      exact absurd ((hd.2 m rfl).1 _ hmem m' rfl).1 (Nat.not_le.mpr hlt)
    · -- all calls of earlier mini-batches have returned
      obtain ⟨txn', hmem⟩ := inBatch_iff.mp ht
      exact ((hd.2 m' hmb).1 _ hmem m rfl).2 hlt
    · exact h t t' m m' ht ht' hlt
  | finish hstart hfin =>
    intro t t' m m' ht ht' hlt
    rw [InBatch, hstart] at ht ht'
    rw [Finished, hfin]
    exact List.mem_cons_of_mem _ (h t t' m m' ht ht' hlt)
  | doneSending hgo => exact hsame hgo
  | silent hgo => exact hsame hgo
  | access hgo => exact hsame hgo
  | lock hgo => exact hsame hgo
  | commit hgo => exact hsame hgo
  | alloc hgo => exact hsame hgo
  | unlock hgo => exact hsame hgo

/-! ### Slots -/

/-- No slot is taken: nobody in a mini-batch commits, and nobody with a slot takes a lock. -/
theorem SlotsOk.congr (h : SlotsOk s) (hstart : s'.started = s.started)
    (hfin : ∀ t, s.Finished t → s'.Finished t) (hq : SameQueues s s')
    (hcom : ∀ t, Committed s.history t → Committed s'.history t)
    (hnew : ∀ t m, s.InBatch t m → Committed s'.history t → Committed s.history t)
    (hpairs : ∀ l l', [.unlock l, .lock l'].Sublist s'.history →
      [.unlock l, .lock l'].Sublist s.history ∨ ∀ e ∈ s.slots, e.1 ≠ l'.txn) : SlotsOk s' := by
  have hbatch : ∀ t m, s'.InBatch t m ↔ s.InBatch t m := fun t m => by
    rw [InBatch, hstart, InBatch]
  refine ⟨?_, ?_, ?_, ?_, ?_, ?_, ?_, ?_⟩
  · rw [hq.slots]
    exact h.nodup
  · rw [hq.slots]
    exact fun e he => hcom _ (h.committed e he)
  · intro t m ht hc
    rw [hq.slots]
    have ht := (hbatch t m).mp ht
    exact h.has_slot t m ht (hnew t m ht hc)
  · rw [hq.slots, hq.batch, hq.hotSendQ]
    exact h.below
  · rw [hq.slots, hq.batch, hq.hotSendQ]
    exact h.entry
  · rw [hq.slots, hq.batch]
    intro e he hlt t m hnid hfin' hm ht
    exact h.emptied e he hlt t m hnid (fun hf => hfin' (hfin t hf)) ((hbatch _ _).mp hm)
      ((hbatch _ _).mp ht)
  · rw [hq.slots]
    intro e he e' he' hnid m hm hm'
    exact h.one_queue e he e' he' hnid m ((hbatch _ _).mp hm) ((hbatch _ _).mp hm')
  · rw [hq.slots]
    intro l l' hsub e he e' he' heq heq'
    rcases hpairs l l' hsub with hold | hno
    · exact h.ordered l l' hold e he e' he' heq heq'
    · exact absurd heq' (hno e' he')

theorem SlotsOk.concat (h : SlotsOk s) (hgo : Ongoing s s') (hq : SameQueues s s')
    {e : Event Attempt DbKey (BitVec 32)} (hhist : s'.history = s.history ++ [e])
    (hcommit : ∀ t m, s.InBatch t m → e ≠ .commit t)
    (hlock : ∀ l, e = .lock l → ∀ x ∈ s.slots, x.1 ≠ l.txn) : SlotsOk s' := by
  refine h.congr hgo.started (fun t => hgo.finished_iff.mpr) hq ?_ ?_ ?_
  · rw [hhist]
    exact fun t ht => committed_concat.mpr (Or.inl ht)
  · rw [hhist]
    exact fun t m ht hc => (committed_concat.mp hc).resolve_right (hcommit t m ht)
  · rw [hhist]
    intro l l' hsub
    exact (pair_sublist_concat.mp hsub).imp_right fun hnew => hlock l' hnew.2.symm

theorem SlotsOk.enter (h : SlotsOk s) (hc : Coupled c store₀ s a) {txn : Txn} {mb : Option ℕ}
    (hd : ∀ m, mb = some m → ∀ e ∈ s.slots, e.1.worker.nid = w.nid →
      e.2.1 < s.batch w.nid → ¬s.InBatch e.1 m)
    (hstart : s'.started = (⟨w, (s.threads w).seq + 1⟩, txn, mb) :: s.started)
    (hfin : s'.finished = s.finished) (hq : SameQueues s s') (hhist : s'.history = s.history) :
    SlotsOk s' := by
  have hfresh := hc.fresh w
  -- the new call has no slot
  have hold : ∀ e ∈ s.slots, ∀ m, s'.InBatch e.1 m → s.InBatch e.1 m := fun e he m hm =>
    ((inBatch_cons hstart).mp hm).resolve_left fun hnew => hfresh _ (h.committed e he) hnew.1
  refine ⟨hq.slots ▸ h.nodup, ?_, ?_, ?_, ?_, ?_, ?_, ?_⟩
  · rw [hq.slots, hhist]
    exact h.committed
  · intro t m ht hcom
    rw [hhist] at hcom
    rw [hq.slots]
    rcases (inBatch_cons hstart).mp ht with ⟨rfl, -⟩ | ht
    · exact absurd rfl (hfresh _ hcom)
    · exact h.has_slot t m ht hcom
  · rw [hq.slots, hq.batch, hq.hotSendQ]
    exact h.below
  · rw [hq.slots, hq.batch, hq.hotSendQ]
    exact h.entry
  · rw [hq.slots, hq.batch]
    intro e he hlt t m hnid hfin' hm ht
    rw [Finished, hfin] at hfin'
    have hm := hold e he m hm
    rcases (inBatch_cons hstart).mp ht with ⟨rfl, rfl⟩ | ht
    · exact hd m rfl e he hnid.symm (hnid ▸ hlt) hm
    · exact h.emptied e he hlt t m hnid hfin' hm ht
  · rw [hq.slots]
    intro e he e' he' hnid m hm hm'
    exact h.one_queue e he e' he' hnid m (hold e he m hm) (hold e' he' m hm')
  · rw [hq.slots, hhist]
    exact h.ordered

theorem SlotsOk.doneSending (h : SlotsOk s) {n : ℕ} (hd : Disciplined s (.doneSending n))
    (hgo : Ongoing s s') (hhist : s'.history = s.history) (hslots : s'.slots = s.slots)
    (hhotSendQ : s'.hotSendQ = Function.update s.hotSendQ n (s.hotSendQ n).doneSending)
    (hbatch : s'.batch = Function.update s.batch n (s.batch n + 1)) : SlotsOk s' := by
  have hself : s'.batch n = s.batch n + 1 := by rw [hbatch, Function.update_self]
  have hother : ∀ n', n' ≠ n → s'.batch n' = s.batch n' ∧ s'.hotSendQ n' = s.hotSendQ n' :=
    fun n' hn => by
      rw [hbatch, hhotSendQ, Function.update_of_ne hn, Function.update_of_ne hn]
      exact ⟨rfl, rfl⟩
  -- the slots of the node are all in earlier batches now
  have hpast : ∀ e ∈ s.slots, e.1.worker.nid = n → e.2.1 < s'.batch n := fun e he hn => by
    rw [hself]
    exact Nat.lt_succ_of_le (hn ▸ (h.below e he).1)
  refine ⟨hslots ▸ h.nodup, ?_, ?_, ?_, ?_, ?_, ?_, ?_⟩
  · rw [hslots, hhist]
    exact h.committed
  · rw [hslots, hhist]
    exact fun t m ht => h.has_slot t m (hgo.inBatch.mp ht)
  · rw [hslots]
    intro e he
    by_cases hn : e.1.worker.nid = n
    · have hlt := hpast e he hn
      rw [hn]
      exact ⟨Nat.le_of_lt hlt, fun heq => absurd heq (Nat.ne_of_lt hlt)⟩
    · obtain ⟨hb, hq⟩ := hother _ hn
      rw [hb, hq]
      exact h.below e he
  · rw [hslots]
    intro e he heq
    by_cases hn : e.1.worker.nid = n
    · have hlt := hpast e he hn
      rw [hn] at heq
      exact absurd heq (Nat.ne_of_lt hlt)
    · obtain ⟨hb, hq⟩ := hother _ hn
      rw [hb] at heq
      rw [hq]
      exact h.entry e he heq
  · rw [hslots]
    intro e he hlt t m hnid hfin hm ht
    rw [hgo.finished_iff] at hfin
    rw [hgo.inBatch] at hm ht
    by_cases hn : e.1.worker.nid = n
    · obtain ⟨txn, hmem⟩ := inBatch_iff.mp ht
      exact hfin (hd _ hmem (hnid.trans hn) nofun)
    · rw [(hother _ hn).1] at hlt
      exact h.emptied e he hlt t m hnid hfin hm ht
  · rw [hslots]
    intro e he e' he' hnid m hm hm'
    exact h.one_queue e he e' he' hnid m (hgo.inBatch.mp hm) (hgo.inBatch.mp hm')
  · rw [hslots, hhist]
    exact h.ordered

/-- A call that runs is in no mini-batch whose slots have been sent. -/
theorem SlotsOk.current (h : SlotsOk s) (hr : Recorded s) (hne : (s.threads w).phase ≠ .idle)
    {e : Attempt × ℕ × ℕ} (he : e ∈ s.slots) (hn : e.1.worker.nid = w.nid) (hm : s.InBatch e.1 m)
    (hm' : s.InBatch (s.attempt w) m) : e.2.1 = s.batch w.nid := by
  rcases Nat.lt_or_eq_of_le (h.below e he).1 with hlt | heq
  · exact absurd hm' (h.emptied e he hlt _ m hn.symm (hr.not_finished hne) hm)
  · rw [heq, hn]

/-- The slots that are there stay where they are when another one is allocated. -/
theorem SlotsOk.kept (h : SlotsOk s) {mb : ℕ} {q : HotSendQ Attempt}
    (hq : (s.hotSendQ w.nid).allocSlot mb (s.attempt w) = some q)
    (hhotSendQ : s'.hotSendQ = Function.update s.hotSendQ w.nid q) {e : Attempt × ℕ × ℕ}
    (he : e ∈ s.slots) (hcur : e.2.1 = s.batch e.1.worker.nid) :
    e.2.2 < (s'.hotSendQ e.1.worker.nid).sendQTail ∧
      ((s'.hotSendQ e.1.worker.nid).sendQ e.2.2).txn = e.1 := by
  obtain ⟨htail, hsendQ⟩ := HotSendQ.allocSlot_eq_some hq
  have hlt := (h.below e he).2 hcur
  have hent := h.entry e he hcur
  rw [hhotSendQ]
  by_cases hn : e.1.worker.nid = w.nid
  · rw [hn] at hlt hent ⊢
    rw [Function.update_self, htail, hsendQ, Function.update_of_ne (Nat.ne_of_lt hlt)]
    exact ⟨Nat.lt_succ_of_lt hlt, hent⟩
  · rw [Function.update_of_ne hn]
    exact ⟨hlt, hent⟩

theorem SlotsOk.alloc (h : SlotsOk s) (hr : Recorded s) {mb : ℕ} {q : HotSendQ Attempt}
    (hgo : Ongoing s s') (hhist : s'.history = s.history ++ [.commit (s.attempt w)])
    (hne : (s.threads w).phase ≠ .idle) (hcom : ¬Committed s.history (s.attempt w))
    (hrel : ¬Released s.history (s.attempt w))
    (hq : (s.hotSendQ w.nid).allocSlot mb (s.attempt w) = some q)
    (hhotSendQ : s'.hotSendQ = Function.update s.hotSendQ w.nid q) (hbatch : s'.batch = s.batch)
    (hslots : s'.slots =
      s.slots ++ [(s.attempt w, s.batch w.nid, (s.hotSendQ w.nid).sendQTail)]) : SlotsOk s' := by
  obtain ⟨htail, hsendQ⟩ := HotSendQ.allocSlot_eq_some hq
  have hfree : ∀ e ∈ s.slots, e.1 ≠ s.attempt w := fun e he heq => hcom (heq ▸ h.committed e he)
  have hmem : ∀ e, e ∈ s'.slots → e ∈ s.slots ∨
      e = (s.attempt w, s.batch w.nid, (s.hotSendQ w.nid).sendQTail) := fun e he => by
    rw [hslots] at he
    exact (List.mem_append.mp he).imp_right List.mem_singleton.mp
  have hself : s'.hotSendQ w.nid = q := by rw [hhotSendQ, Function.update_self]
  refine ⟨?_, ?_, ?_, ?_, ?_, ?_, ?_, ?_⟩
  · -- one slot per attempt: this one has not committed yet
    rw [hslots, List.map_append, List.map_singleton, ← List.concat_eq_append, List.nodup_concat]
    refine ⟨fun hmem => ?_, h.nodup⟩
    obtain ⟨e, he, heq⟩ := List.mem_map.mp hmem
    exact hfree e he heq
  · intro e he
    rw [hhist]
    rcases hmem e he with he | rfl
    · exact committed_concat.mpr (Or.inl (h.committed e he))
    · exact committed_concat.mpr (Or.inr rfl)
  · -- who has committed has a slot: the attempt commits in the same step
    intro t m ht hc
    rw [hhist] at hc
    rw [hslots, List.map_append, List.mem_append]
    rcases committed_concat.mp hc with hc | heq
    · exact Or.inl (h.has_slot t m (hgo.inBatch.mp ht) hc)
    · exact Or.inr (List.mem_singleton.mpr (Event.commit.inj heq).symm)
  · intro e he
    rw [hbatch]
    rcases hmem e he with he | rfl
    · exact ⟨(h.below e he).1, fun heq => (h.kept hq hhotSendQ he heq).1⟩
    · refine ⟨Nat.le_refl _, fun _ => ?_⟩
      show _ < (s'.hotSendQ w.nid).sendQTail
      rw [hself, htail]
      exact Nat.lt_succ_self _
  · -- the slots of the current batch are in the queue
    intro e he heq
    rw [hbatch] at heq
    rcases hmem e he with he | rfl
    · exact (h.kept hq hhotSendQ he heq).2
    · show ((s'.hotSendQ w.nid).sendQ _).txn = _
      rw [hself, hsendQ, Function.update_self]
  · -- the slot is one of the current batch, which nobody has emptied
    intro e he hlt t m hnid hfin hm ht
    rw [hbatch] at hlt
    rw [hgo.finished_iff] at hfin
    rw [hgo.inBatch] at hm ht
    rcases hmem e he with he | rfl
    · exact h.emptied e he hlt t m hnid hfin hm ht
    · exact Nat.lt_irrefl _ hlt
  · intro e he e' he' hnid m hm hm'
    rw [hgo.inBatch] at hm hm'
    rcases hmem e he with he | rfl <;> rcases hmem e' he' with he' | rfl
    · exact h.one_queue e he e' he' hnid m hm hm'
    · exact h.current hr hne he hnid hm hm'
    · exact (h.current hr hne he' hnid.symm hm' hm).symm
    · rfl
  · intro l l' hsub e he e' he' heq heq' hnid
    rw [hhist] at hsub
    have hold : [.unlock l, .lock l'].Sublist s.history :=
      (pair_sublist_concat.mp hsub).resolve_right fun hnew => nomatch hnew.2
    rcases hmem e he with he | rfl
    · rcases hmem e' he' with he' | rfl
      · exact h.ordered l l' hold e he e' he' heq heq' hnid
      · -- whoever has released a lock has taken its slot already
        obtain ⟨hle, hlt⟩ := h.below e he
        rw [hnid] at hle hlt
        exact (Nat.lt_or_eq_of_le hle).imp_right fun hb => ⟨hb, hlt hb⟩
    · -- the attempt has not released a lock
      exact absurd ⟨l, hold.subset List.mem_cons_self, heq.symm⟩ hrel

theorem SlotsOk.of_effect (h : Ordered c s) (hc : Coupled c store₀ s a) (hr : Recorded s)
    (hd : Disciplined s action) (heff : Effect c s action s') : SlotsOk s' := by
  have hs := h.slots
  cases heff with
  | enter _ _ hstart hfin _ _ hq hhist =>
    exact hs.enter hc (fun m hm => (hd.2 m hm).2) hstart hfin hq hhist
  | finish hstart hfin _ _ hq hhist =>
    refine hs.congr hstart (fun t ht => ?_) hq ?_ ?_ ?_
    · rw [Finished, hfin]
      exact List.mem_cons_of_mem _ ht
    · exact fun t ht => hhist ▸ ht
    · exact fun t m _ ht => hhist ▸ ht
    · exact fun l l' hsub => Or.inl (hhist ▸ hsub)
  | doneSending hgo hhist _ hslots hhotSendQ hbatch =>
    exact hs.doneSending hd hgo hhist hslots hhotSendQ hbatch
  | silent hgo hq hhist =>
    exact hs.congr hgo.started (fun t => hgo.finished_iff.mpr) hq (fun t ht => hhist ▸ ht)
      (fun t m _ ht => hhist ▸ ht) (fun l l' hsub => Or.inl (hhist ▸ hsub))
  | access hgo hq hhist _ he =>
    exact hs.concat hgo hq hhist (fun t m _ heq => he (heq ▸ rfl)) fun l heq =>
      absurd (heq ▸ rfl) he
  | lock hgo hq hhist _ hl hpend =>
    refine hs.concat hgo hq hhist nofun fun l' heq e he => ?_
    obtain rfl := Event.lock.inj heq
    rw [hl]
    exact fun heq => h.pending _ hpend (heq ▸ hs.committed e he)
  | @commit action s' w hgo hq hhist _ hpend _ _ hmb =>
    refine hs.concat hgo hq hhist (fun t m ht heq => ?_) nofun
    -- calls of `execute` are in no mini-batch
    obtain rfl := Event.commit.inj heq
    obtain ⟨txn, hmem⟩ := inBatch_iff.mp ht
    exact (hr.ident_eq hpend.running ⟨txn, m, hmem, rfl⟩).2 hmb
  | alloc hgo hhist _ hpend _ hrel _ hq hhotSendQ hbatch hslots =>
    exact hs.alloc hr hgo hhist hpend.running (h.pending _ hpend) hrel hq hhotSendQ hbatch hslots
  | unlock hgo hq hhist => exact hs.concat hgo hq hhist nofun nofun

/-! ### The assertion of `mb_allow_lock` -/

/-- The stamp of a row is not of a later mini-batch than a call that runs. -/
theorem Ordered.mbAllowLock_ne_none (h : Ordered c s) (hr : Recorded s)
    (hne : (s.threads w).phase ≠ .idle) (k : DbKey) :
    (s.rows (c.owner k, k)).mbAllowLock (s.threads w).txn.id ≠ none := by
  intro hnone
  obtain ⟨hvalid, hlt⟩ := Row.mbAllowLock_eq_none hnone
  have hlt : (s.threads w).txn.id.miniBatchId.toNat < (s.lastAcq c k).miniBatchId.toNat :=
    BitVec.lt_def.mp hlt
  have hcur := hr.current w hne
  have hid := h.calls.ident _ hcur
  cases hmb : (s.threads w).miniBatchNum with
  | none =>
    rw [hmb] at hid
    exact Bool.noConfusion (hvalid.symm.trans hid)
  | some m =>
    rw [hmb] at hid hcur
    obtain ⟨-, -, -, hm⟩ := hid
    rcases h.origin k with hinit | ⟨t, txn', m', hmem, hstamp⟩
    · rw [hinit] at hlt
      exact Nat.not_lt_zero _ hlt
    · -- the mini-batch of the stamp began after this call had returned
      obtain ⟨-, -, -, hm'⟩ := h.calls.ident _ hmem
      rw [hm, ← hstamp, hm'] at hlt
      exact hr.not_finished hne (h.batches _ t m m' (inBatch_iff.mpr ⟨_, hcur⟩)
        (inBatch_iff.mpr ⟨_, hmem⟩) hlt)

theorem Ordered.exec_ne_mbAllowLock (h : Ordered c s) (hc : Coupled c store₀ s a)
    (hr : Recorded s) : s.exec c action ≠ some (.error .mbAllowLock) := by
  intro hexec
  cases failure_of_exec hexec with
  | @lockLocal w i op _ hphase hop hlocal hnone =>
    rw [← ((hc.own w).thread.isLocal_iff hop).mp hlocal] at hnone
    exact h.mbAllowLock_ne_none hr (by rw [hphase]; exact nofun) op.id hnone
  | @getReq p hp htype hnone =>
    obtain ⟨op, act, hmsg⟩ := (hc.own p.msg.att.worker).msg p hp rfl
    obtain ⟨hphase, -⟩ := hmsg.waiting (by rw [htype]; rfl)
    rw [(h.stamps _).asked p hp rfl htype, TxnId.ofPacked_getPacked, (hmsg.getReq htype).1,
      hmsg.rid] at hnone
    exact h.mbAllowLock_ne_none hr (by rw [hphase]; exact nofun) op.id hnone

/-! ### Runs -/

theorem Ordered.of_effect (h : Ordered c s) (hc : Coupled c store₀ s a) (hr : Recorded s)
    (hd : Disciplined s action) (heff : Effect c s action s') (hstamps : StampsOk c s') :
    Ordered c s' where
  calls := h.calls.of_effect hd heff
  stamps := hstamps
  pending := pending_of_effect h.pending hc heff
  origin := origin_of_effect h.origin hr heff
  stamped := stamped_of_effect h hc hr heff
  batches := batches_of_effect h.batches hd heff
  slots := SlotsOk.of_effect h hc hr hd heff

theorem ordered_init (c : Config) (value : ℕ → DbKey → BitVec 32)
    (mem : ℕ → ℕ → HotTxnEntry Attempt) : Ordered c (init value mem) where
  calls := ⟨nofun, nofun⟩
  stamps := stampsOk_init c value mem
  pending _ _ := nofun
  origin _ := Or.inl rfl
  stamped := Stamped.nil
  batches := nofun
  slots := ⟨List.nodup_nil, nofun, nofun, nofun, nofun, nofun, nofun, nofun⟩

theorem halted_of_move (h : Move c s action s') : s'.halted = s.halted := by
  cases h <;> rfl

/-- The state of a disciplined run. -/
structure Good (c : Config) (store₀ : DbKey → BitVec 32) (s : System) : Prop where
  coupled : ∃ a, Coupled c store₀ s a
  recorded : Recorded s
  ordered : Ordered c s
  halted : ∀ n, s.halted n ≠ some .mbAllowLock

theorem Good.step (h : Good c store₀ s) (hd : Disciplined s action)
    (hstep : s.step c action = some s') : Good c store₀ s' := by
  obtain ⟨a, hc⟩ := h.coupled
  have ho := h.ordered
  obtain ⟨a', -, hc', hr'⟩ := hc.step h.recorded hstep
  rcases step_cases hstep with hmove | ⟨f, hexec, rfl⟩
  · have hstamps := ho.stamps.of_move hc h.recorded ho.calls hmove
    have heff := effect_of_move ho.stamps hc h.recorded ho.calls hmove
    exact ⟨⟨a', hc'⟩, hr', ho.of_effect hc h.recorded hd heff hstamps,
      halted_of_move hmove ▸ h.halted⟩
  · have hstamps : StampsOk c { s with halted := Function.update s.halted action.node (some f) } :=
      ho.stamps.congr rfl rfl rfl
    have heff : Effect c s action
        { s with halted := Function.update s.halted action.node (some f) } :=
      .silent (.of_threads rfl rfl rfl) ⟨rfl, rfl, rfl⟩ rfl (lastAcq_eq rfl)
    refine ⟨⟨a', hc'⟩, hr', ho.of_effect hc h.recorded hd heff hstamps, fun n hn => ?_⟩
    have hn : Function.update s.halted action.node (some f) n = some .mbAllowLock := hn
    by_cases hnode : n = action.node
    · subst hnode
      rw [Function.update_self] at hn
      obtain rfl := Option.some.inj hn
      exact ho.exec_ne_mbAllowLock hc h.recorded hexec
    · rw [Function.update_of_ne hnode] at hn
      exact h.halted n hn

theorem good_of_run {value : ℕ → DbKey → BitVec 32} {mem : ℕ → ℕ → HotTxnEntry Attempt}
    {as : List Action} (hd : AlongRun (System.step c) Disciplined (init value mem) as)
    (hrun : run (System.step c) (init value mem) as = some s) : Good c (initStore c value) s :=
  run_invariant_of_along (fun _ _ _ => Good.step)
    ⟨⟨_, coupled_init c value mem⟩, recorded_init value mem, ordered_init c value mem,
    nofun⟩ hd hrun

/-- A transaction that hands a row on precedes the one that gets it, by mini-batch and node. -/
theorem Ordered.batch_order (h : Ordered c s) {l₁ l₂ : RowLock} {m₁ m₂ : ℕ}
    (hm₁ : s.InBatch l₁.txn m₁) (hm₂ : s.InBatch l₂.txn m₂) (hcom : Committed s.history l₁.txn)
    (hitem : l₁.item = l₂.item) (hsub : [.unlock l₁, .lock l₂].Sublist s.history) :
    m₁ < m₂ ∨ m₁ = m₂ ∧ l₁.txn.worker.nid = l₂.txn.worker.nid := by
  obtain ⟨txn₁, hmem₁⟩ := inBatch_iff.mp hm₁
  obtain ⟨txn₂, hmem₂⟩ := inBatch_iff.mp hm₂
  obtain ⟨-, -, hnode₁, hid₁⟩ := h.calls.ident _ hmem₁
  obtain ⟨-, -, hnode₂, hid₂⟩ := h.calls.ident _ hmem₂
  have hle : txn₁.id ≤ txn₂.id :=
    h.stamped.granted l₁ l₂ _ _ hsub hitem hcom ⟨txn₁, m₁, hmem₁, rfl⟩ ⟨txn₂, m₂, hmem₂, rfl⟩
  rcases TxnId.le_iff.mp hle with hlt | ⟨hmb, hnode⟩
  · left
    rw [← hid₁, ← hid₂]
    exact BitVec.lt_def.mp hlt
  · right
    rw [← hid₁, ← hid₂, ← hnode₁, ← hnode₂, hmb, hnode]
    exact ⟨rfl, rfl⟩

/-- **The hot order extends the cold order.**  In every disciplined run, if a committed call of
`my_execute` releases a row before another one locks it, it is of an earlier mini-batch, or both are
of the same mini-batch and node, and of their slots in the same filling of the hot send queue its
own is the earlier one.  The assertion of `mb_allow_lock` ends no process. -/
theorem hot_order_extends_cold_order (c : Config) (value : ℕ → DbKey → BitVec 32)
    (mem : ℕ → ℕ → HotTxnEntry Attempt) (as : List Action) (s : System)
    (hd : AlongRun (System.step c) Disciplined (init value mem) as)
    (hrun : run (System.step c) (init value mem) as = some s) :
    (∀ n, s.halted n ≠ some .mbAllowLock) ∧
    ∀ (l₁ l₂ : RowLock) (m₁ m₂ : ℕ), s.InBatch l₁.txn m₁ → s.InBatch l₂.txn m₂ →
      Committed s.history l₁.txn → Committed s.history l₂.txn → l₁.item = l₂.item →
      [.unlock l₁, .lock l₂].Sublist s.history →
      m₁ < m₂ ∨ m₁ = m₂ ∧ l₁.txn.worker.nid = l₂.txn.worker.nid ∧
        ∃ b i₁ i₂, (l₁.txn, b, i₁) ∈ s.slots ∧ (l₂.txn, b, i₂) ∈ s.slots ∧ i₁ < i₂ ∧
          (b = s.batch l₁.txn.worker.nid →
            ((s.hotSendQ l₁.txn.worker.nid).sendQ i₁).txn = l₁.txn ∧
            ((s.hotSendQ l₁.txn.worker.nid).sendQ i₂).txn = l₂.txn) := by
  have hgood := good_of_run hd hrun
  refine ⟨hgood.halted, fun l₁ l₂ m₁ m₂ hm₁ hm₂ hc₁ hc₂ hitem hsub => ?_⟩
  have hs := hgood.ordered.slots
  refine (hgood.ordered.batch_order hm₁ hm₂ hc₁ hitem hsub).imp_right fun ⟨hm, hnid⟩ => ?_
  refine ⟨hm, hnid, ?_⟩
  -- both have a slot, in the same filling of the queue
  obtain ⟨⟨t₁, b, i₁⟩, he₁, ht₁⟩ := List.mem_map.mp (hs.has_slot _ _ hm₁ hc₁)
  obtain ⟨⟨t₂, b₂, i₂⟩, he₂, ht₂⟩ := List.mem_map.mp (hs.has_slot _ _ hm₂ hc₂)
  obtain rfl : t₁ = l₁.txn := ht₁
  obtain rfl : t₂ = l₂.txn := ht₂
  obtain rfl : b = b₂ := hs.one_queue _ he₁ _ he₂ hnid m₁ hm₁ (hm ▸ hm₂)
  have hlt : i₁ < i₂ := by
    rcases hs.ordered l₁ l₂ hsub _ he₁ _ he₂ rfl rfl hnid with hb | ⟨-, hi⟩
    · exact absurd hb (Nat.lt_irrefl b)
    · exact hi
  refine ⟨b, i₁, i₂, he₁, he₂, hlt, fun hb => ⟨hs.entry _ he₁ hb, ?_⟩⟩
  rw [hnid] at hb ⊢
  exact hs.entry _ he₂ hb

/-! ### A run -/

instance (s : System) : (action : Action) → Decidable (Disciplined s action)
  | .start _ _ _ => inferInstanceAs (Decidable (_ ∧ ∀ m ∈ _, _))
  | .doneSending n =>
    inferInstanceAs (Decidable (∀ e ∈ s.started, e.1.worker.nid = n → e.2.2 ≠ none →
      s.Finished e.1))
  | .thread _ _ => inferInstanceAs (Decidable True)
  | .deliver _ => inferInstanceAs (Decidable True)

/-- Two threads of node 0 write key 0 one after the other in the first mini-batch. -/
def writeTwice : List Action :=
  .start ⟨0, 0⟩ (oneOp 0 0 .write 7) (some 1) :: List.replicate 8 (.thread ⟨0, 0⟩ false) ++
  .start ⟨0, 1⟩ (oneOp 0 0 .write 8) (some 1) :: List.replicate 8 (.thread ⟨0, 1⟩ false)

/-- The lock of each of them. -/
def lockOfKey0 (tid : ℕ) : RowLock := ⟨⟨⟨0, tid⟩, 1⟩, 0, 0, true⟩

theorem hot_order_extends_cold_order_writeTwice :
    ∃ s, AlongRun (System.step twoNodes) Disciplined allFive writeTwice ∧
      run (System.step twoNodes) allFive writeTwice = some s ∧
      (∀ n, s.halted n ≠ some .mbAllowLock) ∧
      ∃ b i₁ i₂, ((lockOfKey0 0).txn, b, i₁) ∈ s.slots ∧ ((lockOfKey0 1).txn, b, i₂) ∈ s.slots ∧
        i₁ < i₂ := by
  have hd : AlongRun (System.step twoNodes) Disciplined allFive writeTwice := by decide +kernel
  have hrun : (run (System.step twoNodes) allFive writeTwice).map (fun s =>
      decide (s.InBatch (lockOfKey0 0).txn 1 ∧ s.InBatch (lockOfKey0 1).txn 1 ∧
        .commit (lockOfKey0 0).txn ∈ s.history ∧ .commit (lockOfKey0 1).txn ∈ s.history ∧
        [.unlock (lockOfKey0 0), .lock (lockOfKey0 1)].Sublist s.history)) = some true := by
    decide +kernel
  obtain ⟨s, hs, heq⟩ := Option.map_eq_some_iff.mp hrun
  obtain ⟨hm₁, hm₂, hc₁, hc₂, hsub⟩ := of_decide_eq_true heq
  obtain ⟨hhalted, horder⟩ := hot_order_extends_cold_order twoNodes _ _ writeTwice s hd hs
  refine ⟨s, hd, hs, hhalted, ?_⟩
  rcases horder _ _ 1 1 hm₁ hm₂ hc₁ hc₂ rfl hsub with hlt | ⟨-, -, b, i₁, i₂, he₁, he₂, hi, -⟩
  · exact absurd hlt (Nat.lt_irrefl 1)
  · exact ⟨b, i₁, i₂, he₁, he₂, hi⟩

end P4db.System
