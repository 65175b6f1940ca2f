import P4db.Algorithm.Transition
import P4db.Ee.Equiv.Handlers

/-!
# Committed transactions are serializable

`Recorded` says that what a call has done is in the history: in the second loop the operations
before the current one, and from the commit on all of them; a call that has returned `COMMIT` has
also released its locks.  Together with the coupling this gives `serializable`: the calls that
return `COMMIT`, on any nodes and threads, are conflict-serializable in the order of their first
lock release.
-/

namespace P4db

open TwoPhase Transition

/-- The number of operations, of `n`, whose access is done. -/
def Phase.accessed (n : ℕ) : Phase → ℕ
  | .access i => i
  | .alloc | .clear .commit _ | .waitPuts .commit => n
  | _ => 0

namespace System

variable {c : Config} {s s' : System} {a : Ledger} {w : NodeT} {store₀ : DbKey → BitVec 32}

/-- Operation `i` of the call `t` is in the history. -/
def Performed (h : List (Event Attempt DbKey (BitVec 32))) (t : Attempt) (i : ℕ) (op : Op) : Prop :=
  (op.mode = .write → .write ⟨t, i, op.id, true⟩ op.value ∈ h) ∧
  (op.mode = .read → ∃ v, .read ⟨t, i, op.id, false⟩ v ∈ h)

theorem Performed.mono {h h' : List (Event Attempt DbKey (BitVec 32))} {t : Attempt} {i : ℕ}
    {op : Op} (hp : Performed h t i op) (hsub : ∀ e ∈ h, e ∈ h') : Performed h' t i op :=
  ⟨fun hm => hsub _ (hp.1 hm), fun hm => (hp.2 hm).imp fun _ hv => hsub _ hv⟩

/-- What is recorded of the calls. -/
structure Recorded (s : System) : Prop where
  nodup : (s.started.map Prod.fst).Nodup
  seq_le : ∀ e ∈ s.started, e.1.seq ≤ (s.threads e.1.worker).seq
  current : ∀ w, (s.threads w).phase ≠ .idle →
    (⟨w, (s.threads w).seq⟩, (s.threads w).txn, (s.threads w).miniBatchNum) ∈ s.started
  /-- a call that has not returned is the one its thread is in -/
  running : ∀ e ∈ s.started, (∃ rc, (e.1, rc) ∈ s.finished) ∨
    e.1.seq = (s.threads e.1.worker).seq ∧ (s.threads e.1.worker).phase ≠ .idle
  returned : ∀ e ∈ s.finished, e.1.seq ≤ (s.threads e.1.worker).seq ∧
    (e.1.seq = (s.threads e.1.worker).seq → (s.threads e.1.worker).phase = .idle)
  performed : ∀ w i op, (s.threads w).txn.cold[i]? = some op →
    i < (s.threads w).phase.accessed (s.threads w).txn.cold.length →
    Performed s.history ⟨w, (s.threads w).seq⟩ i op
  finished : ∀ t, (t, .commit) ∈ s.finished → ∀ txn mb, (t, txn, mb) ∈ s.started →
    Committed s.history t ∧ (txn.cold ≠ [] → Released s.history t) ∧
      ∀ i op, txn.cold[i]? = some op → Performed s.history t i op

theorem recorded_init (value : ℕ → DbKey → BitVec 32) (mem : ℕ → ℕ → HotTxnEntry Attempt) :
    Recorded (init value mem) where
  nodup := List.nodup_nil
  seq_le := nofun
  current _ h := absurd rfl h
  running := nofun
  returned := nofun
  performed _ _ _ _ h := absurd h (Nat.not_lt_zero _)
  finished := nofun

/-- A call is recorded once. -/
theorem Recorded.unique (h : Recorded s) {e e' : Attempt × Txn × Option ℕ} (he : e ∈ s.started)
    (he' : e' ∈ s.started) (heq : e.1 = e'.1) : e = e' :=
  List.inj_on_of_nodup_map h.nodup he he' heq

/-- A thread is in the same call as before. -/
structure SameCall (th th' : Thread) : Prop where
  seq : th'.seq = th.seq
  txn : th'.txn = th.txn
  miniBatchNum : th'.miniBatchNum = th.miniBatchNum
  idle : th'.phase = .idle ↔ th.phase = .idle

theorem SameCall.refl (th : Thread) : SameCall th th := ⟨rfl, rfl, rfl, Iff.rfl⟩

/-- The history grows, and threads go on with their calls; what counts as done from now on must be
in the history. -/
theorem Recorded.mono (h : Recorded s) (hhist : ∀ e ∈ s.history, e ∈ s'.history)
    (hstart : s'.started = s.started) (hfin : s'.finished = s.finished)
    (hcall : ∀ w, SameCall (s.threads w) (s'.threads w))
    (hperf : ∀ w i op, (s.threads w).txn.cold[i]? = some op →
      i < (s'.threads w).phase.accessed (s.threads w).txn.cold.length →
      i < (s.threads w).phase.accessed (s.threads w).txn.cold.length ∨
        Performed s'.history ⟨w, (s.threads w).seq⟩ i op) : Recorded s' where
  nodup := hstart ▸ h.nodup
  seq_le e he := (hcall _).seq ▸ h.seq_le e (hstart ▸ he)
  current w hw := by
    rw [(hcall w).seq, (hcall w).txn, (hcall w).miniBatchNum, hstart]
    exact h.current w ((hcall w).idle.not.mp hw)
  running e he := by
    rw [hfin, (hcall _).seq, ne_eq, (hcall _).idle]
    exact h.running e (hstart ▸ he)
  returned e he := by
    rw [(hcall _).seq, (hcall _).idle]
    exact h.returned e (hfin ▸ he)
  performed w i op hop hi := by
    rw [(hcall w).txn] at hop hi
    rw [(hcall w).seq]
    rcases hperf w i op hop hi with hold | hnew
    · exact (h.performed w i op hop hold).mono hhist
    · exact hnew
  finished t ht txn mb hmem := by
    obtain ⟨hcom, hrel, hall⟩ := h.finished t (hfin ▸ ht) txn mb (hstart ▸ hmem)
    refine ⟨hhist _ hcom, fun hne => ?_, fun i op hop => (hall i op hop).mono hhist⟩
    obtain ⟨l, hl, hlt⟩ := hrel hne
    exact ⟨l, hhist _ hl, hlt⟩

/-- One thread goes on with its call. -/
theorem Recorded.update (h : Recorded s) {ph : Phase} {log : List UndoAction}
    (hthreads : s'.threads =
      Function.update s.threads w { s.threads w with phase := ph, log := log })
    (hhist : ∀ e ∈ s.history, e ∈ s'.history) (hstart : s'.started = s.started)
    (hfin : s'.finished = s.finished) (hidle : ph = .idle ↔ (s.threads w).phase = .idle)
    (hperf : ∀ i op, (s.threads w).txn.cold[i]? = some op →
      i < ph.accessed (s.threads w).txn.cold.length →
      i < (s.threads w).phase.accessed (s.threads w).txn.cold.length ∨
        Performed s'.history ⟨w, (s.threads w).seq⟩ i op) : Recorded s' := by
  refine h.mono hhist hstart hfin (fun w' => ?_) fun w' i op hop hi => ?_
  · rw [hthreads]
    by_cases hw : w' = w
    · subst hw
      rw [Function.update_self]
      exact ⟨rfl, rfl, rfl, hidle⟩
    · rw [Function.update_of_ne hw]
      exact SameCall.refl _
  · rw [hthreads] at hi
    by_cases hw : w' = w
    · subst hw
      rw [Function.update_self] at hi
      exact hperf i op hop hi
    · rw [Function.update_of_ne hw] at hi
      exact Or.inl hi

/-- One thread goes on with its call, and nothing more of it is done. -/
theorem Recorded.goOn (h : Recorded s) {ph ph' : Phase} {log : List UndoAction}
    (hphase : (s.threads w).phase = ph)
    (hthreads : s'.threads =
      Function.update s.threads w { s.threads w with phase := ph', log := log })
    (hhist : ∀ e ∈ s.history, e ∈ s'.history) (hstart : s'.started = s.started)
    (hfin : s'.finished = s.finished) (hne : ph ≠ .idle) (hne' : ph' ≠ .idle)
    (hacc : ph'.accessed (s.threads w).txn.cold.length ≤
      ph.accessed (s.threads w).txn.cold.length) : Recorded s' := by
  subst hphase
  exact h.update hthreads hhist hstart hfin (iff_of_false hne' hne) fun _ _ _ hi =>
    Or.inl (Nat.lt_of_lt_of_le hi hacc)

theorem mem_concat {α : Type*} (l : List α) (x : α) : ∀ e ∈ l, e ∈ l ++ [x] :=
  fun _ he => List.mem_append_left _ he

/-- One more operation is done. -/
theorem Recorded.access (h : Recorded s) {i : ℕ} {op : Op} {act : UndoAction} {f : TupleFuture}
    {e : Event Attempt DbKey (BitVec 32)} (hphase : (s.threads w).phase = .access i)
    (hop : (s.threads w).txn.cold[i]? = some op)
    (hthreads : s'.threads = Function.update s.threads w (accessed (s.threads w) i act f))
    (hhist : s'.history = s.history ++ [e]) (hstart : s'.started = s.started)
    (hfin : s'.finished = s.finished)
    (hperf : Performed s'.history ⟨w, (s.threads w).seq⟩ i op) : Recorded s' := by
  refine h.update hthreads (hhist ▸ mem_concat _ _) hstart hfin
    (iff_of_false nofun (by rw [hphase]; exact nofun)) fun j op' hop' hj => ?_
  rcases Nat.lt_succ_iff_lt_or_eq.mp hj with hlt | rfl
  · left
    rw [hphase]
    exact hlt
  · right
    obtain rfl := Option.some.inj (hop.symm.trans hop')
    exact hperf

theorem performed_write {h : List (Event Attempt DbKey (BitVec 32))} {th : Thread} {i : ℕ} {op : Op}
    (hmode : op.mode = .write) :
    Performed (h ++ [.write (rowLock w th i op) op.value]) ⟨w, th.seq⟩ i op := by
  refine ⟨fun _ => List.mem_append_right _ ?_, fun hr => nomatch hmode.symm.trans hr⟩
  rw [rowLock, hmode]
  exact List.mem_cons_self

theorem performed_read {h : List (Event Attempt DbKey (BitVec 32))} {th : Thread} {i : ℕ} {op : Op}
    {v : BitVec 32} (hmode : op.mode ≠ .write) :
    Performed (h ++ [.read (rowLock w th i op) v]) ⟨w, th.seq⟩ i op := by
  refine ⟨fun hw => absurd hw hmode, fun _ => ⟨v, List.mem_append_right _ ?_⟩⟩
  rw [rowLock, decide_eq_false hmode]
  exact List.mem_cons_self

/-- A call that returns `COMMIT` has released every lock. -/
theorem Coupled.released_of_commit (h : Coupled c store₀ s a)
    (hphase : (s.threads w).phase = .waitPuts .commit) (hputs : s.putResponses w = 0)
    (hne : (s.threads w).txn.cold ≠ []) : Released s.history ⟨w, (s.threads w).seq⟩ := by
  have ho := h.own w
  have hlen : (s.threads w).log.length = (s.threads w).txn.cold.length :=
    ho.thread.len _ (by rw [hphase]; rfl)
  have hpos : 0 < (s.threads w).log.length := hlen ▸ List.length_pos_iff.mpr hne
  have hcl : (s.threads w).phase.cleared 0 = true := by rw [hphase]; rfl
  obtain ⟨op, hop, hok⟩ := ho.thread.entry 0 _ (List.getElem?_eq_getElem hpos)
  rw [← h.history]
  cases hlocal : op.locInfo.isLocal with
  | true => exact (hok.ofLocal hlocal).2.2.2 hcl
  | false =>
    have hfut := (hok.ofRemote hlocal).2
    generalize ((s.threads w).log[0]).future = f at hfut
    cases hfut with
    | waiting hawait => exact nomatch hphase.symm.trans hawait
    | answered hawait => exact nomatch hphase.symm.trans hawait
    | refused hroll => rw [hphase] at hroll; cases hroll
    | granted _ _ _ hdone =>
      refine (hdone hcl).resolve_left fun hl => ?_
      -- a lock that is still held is about to be released by a message
      exact Bool.noConfusion (hcl.symm.trans (ho.not_held_of_cleared h.net hputs hl rfl))

theorem Recorded.enter (h : Recorded s) (hphase : (s.threads w).phase = .idle) (txn : Txn)
    (mb : Option ℕ) : Recorded (s.enter w txn mb) := by
  have hself : (s.enter w txn mb).threads w = ⟨.acquire 0, (s.threads w).seq + 1, txn, mb, []⟩ :=
    Function.update_self _ _ _
  have hother : ∀ w', w' ≠ w → (s.enter w txn mb).threads w' = s.threads w' := fun w' hw =>
    Function.update_of_ne hw _ _
  have hseq : ∀ w', (s.threads w').seq ≤ ((s.enter w txn mb).threads w').seq := fun w' => by
    by_cases hw : w' = w
    · subst hw
      rw [hself]
      exact Nat.le_succ _
    · rw [hother w' hw]
  refine ⟨List.nodup_cons.mpr ⟨fun hmem => ?_, h.nodup⟩, fun e he => ?_, fun w' hw' => ?_,
    fun e he => ?_, fun e he => ?_, fun w' i op hop hi => ?_, fun t ht txn' mb' hmem => ?_⟩
  · -- the number of the call is new
    obtain ⟨e, he, heq⟩ := List.mem_map.mp hmem
    have hle := h.seq_le e he
    rw [heq] at hle
    exact Nat.not_succ_le_self _ hle
  · rcases List.mem_cons.mp he with rfl | he
    · exact Nat.le_of_eq (congrArg Thread.seq hself).symm
    · exact Nat.le_trans (h.seq_le e he) (hseq _)
  · by_cases hw : w' = w
    · subst hw
      rw [hself]
      exact List.mem_cons_self
    · rw [hother w' hw] at hw' ⊢
      exact List.mem_cons_of_mem _ (h.current w' hw')
  · rcases List.mem_cons.mp he with rfl | he
    · right
      rw [hself]
      exact ⟨rfl, nofun⟩
    · refine (h.running e he).imp_right fun ⟨hrun, hne⟩ => ?_
      have hw : e.1.worker ≠ w := fun hw => hne (hw ▸ hphase)
      rw [hother _ hw]
      exact ⟨hrun, hne⟩
  · by_cases hw : e.1.worker = w
    · have hle := (h.returned e he).1
      rw [hw] at hle ⊢
      rw [hself]
      exact ⟨Nat.le_succ_of_le hle, fun heq => absurd (heq ▸ hle) (Nat.not_succ_le_self _)⟩
    · rw [hother _ hw]
      exact h.returned e he
  · by_cases hw : w' = w
    · subst hw
      rw [hself] at hi
      exact absurd hi (Nat.not_lt_zero _)
    · rw [hother w' hw] at hop hi ⊢
      exact h.performed w' i op hop hi
  · rcases List.mem_cons.mp hmem with heq | hold
    · -- a call that has just begun has not returned
      obtain rfl : t = ⟨w, (s.threads w).seq + 1⟩ := congrArg Prod.fst heq
      exact absurd (h.returned _ ht).1 (Nat.not_succ_le_self _)
    · exact h.finished t ht txn' mb' hold

theorem Recorded.finish (h : Recorded s) (hc : Coupled c store₀ s a) {rc : RC}
    (hphase : (s.threads w).phase = .waitPuts rc) (hputs : s.putResponses w = 0) :
    Recorded { s.setThread w { s.threads w with phase := .idle, log := [] } with
      finished := (s.attempt w, rc) :: s.finished } := by
  have hown : (s.attempt w, (s.threads w).txn, (s.threads w).miniBatchNum) ∈ s.started :=
    h.current w (by rw [hphase]; exact nofun)
  generalize hs' : { s.setThread w { s.threads w with phase := .idle, log := [] } with
    finished := (s.attempt w, rc) :: s.finished } = s'
  have hself : s'.threads w = { s.threads w with phase := .idle, log := [] } := by
    rw [← hs']
    exact Function.update_self _ _ _
  have hother : ∀ w', w' ≠ w → s'.threads w' = s.threads w' := fun w' hw => by
    rw [← hs']
    exact Function.update_of_ne hw _ _
  have hseq : ∀ w', (s'.threads w').seq = (s.threads w').seq := fun w' => by
    by_cases hw : w' = w
    · subst hw
      rw [hself]
    · rw [hother w' hw]
  have hstart : s'.started = s.started := hs' ▸ rfl
  have hhist : s'.history = s.history := hs' ▸ rfl
  have hfin : s'.finished = (s.attempt w, rc) :: s.finished := hs' ▸ rfl
  refine ⟨hstart ▸ h.nodup, fun e he => (hseq _).symm ▸ h.seq_le e (hstart ▸ he), fun w' hw' => ?_,
    fun e he => ?_, fun e he => ?_, fun w' i op hop hi => ?_, fun t ht txn mb hmem => ?_⟩
  · have hw : w' ≠ w := fun hw => hw' (by rw [hw, hself])
    rw [hother w' hw] at hw' ⊢
    exact hstart ▸ h.current w' hw'
  · rw [hfin]
    rcases h.running e (hstart ▸ he) with ⟨rc', hrc⟩ | ⟨hrun, hne⟩
    · exact Or.inl ⟨rc', List.mem_cons_of_mem _ hrc⟩
    · by_cases hw : e.1.worker = w
      · have heq : e.1 = s.attempt w := by
          rw [attempt, ← hw, ← hrun]
        exact Or.inl ⟨rc, heq ▸ List.mem_cons_self⟩
      · rw [hother _ hw]
        exact Or.inr ⟨hrun, hne⟩
  · rw [hseq]
    rcases List.mem_cons.mp (hfin ▸ he) with rfl | he
    · exact ⟨Nat.le_refl _, fun _ => congrArg Thread.phase hself⟩
    · refine ⟨(h.returned e he).1, fun heq => ?_⟩
      by_cases hw : e.1.worker = w
      · rw [hw, hself]
      · rw [hother _ hw]
        exact (h.returned e he).2 heq
  · by_cases hw : w' = w
    · subst hw
      rw [hself] at hi
      exact absurd hi (Nat.not_lt_zero _)
    · rw [hother w' hw] at hop hi ⊢
      exact hhist ▸ h.performed w' i op hop hi
  · rw [hhist]
    rw [hstart] at hmem
    rcases List.mem_cons.mp (hfin ▸ ht) with heq | hold
    · -- the call that returns is in the second half of its transaction
      obtain ⟨rfl, rfl⟩ := Prod.mk.inj heq
      have hcall := h.unique hmem hown rfl
      obtain ⟨rfl, -⟩ := Prod.mk.inj (Prod.mk.inj hcall).2
      refine ⟨hc.history ▸ (hc.own w).thread.committed (by rw [hphase]; rfl),
        hc.released_of_commit hphase hputs, fun i op hop => h.performed w i op hop ?_⟩
      rw [hphase]
      exact (List.getElem?_eq_some_iff.mp hop).1
    · exact h.finished t hold txn mb hmem

theorem Recorded.of_move (h : Recorded s) (hc : Coupled c store₀ s a) {action : Action}
    (hmove : Move c s action s') : Recorded s' := by
  cases hmove with
  | enter hphase => exact h.enter hphase _ _
  | endAcquire hphase => exact h.goOn hphase rfl (fun _ => id) rfl rfl nofun nofun (Nat.zero_le _)
  | refuse hphase => exact h.goOn hphase rfl (fun _ => id) rfl rfl nofun nofun (Nat.zero_le _)
  | lockLocal hphase => exact h.goOn hphase rfl (mem_concat _ _) rfl rfl nofun nofun (Nat.zero_le _)
  | request hphase => exact h.goOn hphase rfl (fun _ => id) rfl rfl nofun nofun (Nat.zero_le _)
  | awaitRefused hphase => exact h.goOn hphase rfl (fun _ => id) rfl rfl nofun nofun (Nat.zero_le _)
  | awaitGranted hphase => exact h.goOn hphase rfl (fun _ => id) rfl rfl nofun nofun (Nat.zero_le _)
  | toAlloc hphase hop =>
    exact h.goOn hphase rfl (fun _ => id) rfl rfl nofun nofun (List.getElem?_eq_none_iff.mp hop)
  | commit hphase hop =>
    exact h.goOn hphase rfl (mem_concat _ _) rfl rfl nofun nofun (List.getElem?_eq_none_iff.mp hop)
  | writeRow hphase hop _ _ _ hmode =>
    exact h.access hphase hop rfl rfl rfl rfl (performed_write hmode)
  | readRow hphase hop _ _ _ hmode =>
    exact h.access hphase hop rfl rfl rfl rfl (performed_read hmode)
  | writePacket hphase hop _ _ _ _ hmode =>
    exact h.access hphase hop rfl rfl rfl rfl (performed_write hmode)
  | readPacket hphase hop _ _ _ _ hmode =>
    exact h.access hphase hop rfl rfl rfl rfl (performed_read hmode)
  | accessNull hphase => exact h.goOn hphase rfl (fun _ => id) rfl rfl nofun nofun (Nat.zero_le _)
  | alloc hphase => exact h.goOn hphase rfl (mem_concat _ _) rfl rfl nofun nofun (Nat.le_refl _)
  | @endClear w rc j _ hphase =>
    refine h.goOn hphase rfl (fun _ => id) rfl rfl nofun nofun ?_
    cases rc <;> exact Nat.le_refl _
  | @clearLocal w rc j act row _ hphase =>
    refine h.goOn hphase rfl (mem_concat _ _) rfl rfl nofun nofun ?_
    cases rc <;> exact Nat.le_refl _
  | @clearSkip w rc j act target f _ hphase =>
    refine h.goOn hphase rfl (fun _ => id) rfl rfl nofun nofun ?_
    cases rc <;> exact Nat.le_refl _
  | @clearRemote w rc j act target f res _ hphase =>
    refine h.goOn hphase rfl (fun _ => id) rfl rfl nofun nofun ?_
    cases rc <;> exact Nat.le_refl _
  | finish hphase hputs => exact h.finish hc hphase hputs
  | getReqRefused =>
    exact h.mono (fun _ => id) rfl rfl (fun _ => SameCall.refl _) fun _ _ _ _ => Or.inl
  | getReqGranted =>
    exact h.mono (mem_concat _ _) rfl rfl (fun _ => SameCall.refl _) fun _ _ _ _ => Or.inl
  | getRes => exact h.update rfl (fun _ => id) rfl rfl Iff.rfl fun _ _ _ => Or.inl
  | putReq =>
    exact h.mono (mem_concat _ _) rfl rfl (fun _ => SameCall.refl _) fun _ _ _ _ => Or.inl
  | putRes => exact h.mono (fun _ => id) rfl rfl (fun _ => SameCall.refl _) fun _ _ _ _ => Or.inl
  | doneSending =>
    exact h.mono (fun _ => id) rfl rfl (fun _ => SameCall.refl _) fun _ _ _ _ => Or.inl

/-- A step keeps the coupling and the record. -/
theorem Coupled.step (hc : Coupled c store₀ s a) (h : Recorded s) {action : Action}
    (hstep : s.step c action = some s') :
    ∃ a', Relation.ReflGen Step a a' ∧ Coupled c store₀ s' a' ∧ Recorded s' := by
  rcases step_cases hstep with hmove | ⟨f, -, rfl⟩
  · obtain ⟨a', hsteps, hc'⟩ := hc.of_move hmove
    exact ⟨a', hsteps, hc', h.of_move hc hmove⟩
  · exact ⟨a, .refl, hc.congr rfl rfl rfl rfl rfl rfl rfl,
      h.mono (fun _ => id) rfl rfl (fun _ => SameCall.refl _) fun _ _ _ _ => Or.inl⟩

/-- **The executor refines strict two-phase locking.**  In every state of a run there is a state of
the locking machine with the same history, and the calls are recorded. -/
theorem exists_coupled_recorded {value : ℕ → DbKey → BitVec 32}
    {mem : ℕ → ℕ → HotTxnEntry Attempt} {as : List Action}
    (hrun : run (System.step c) (init value mem) as = some s) :
    ∃ a, Coupled c (initStore c value) s a ∧ Recorded s :=
  run_invariant (I := fun s => ∃ a, Coupled c (initStore c value) s a ∧ Recorded s)
    (fun _ _ _ ⟨_, hc, h⟩ hstep => let ⟨a', _, h'⟩ := hc.step h hstep; ⟨a', h'⟩) ⟨_,
      coupled_init c value mem, recorded_init value mem⟩ hrun

/-- **Serializability.**  In every run there is an order of the calls that committed and have
released a lock, by their first release, that is a serial order of the history.  A call that has
returned `COMMIT` is in it if it has any operation; its writes are in the history with their values,
and each of its reads has returned the last value written by the calls before it in that order, or
the initial value of the row that counts. -/
theorem serializable (c : Config) (value : ℕ → DbKey → BitVec 32)
    (mem : ℕ → ℕ → HotTxnEntry Attempt) (as : List Action) (s : System)
    (hrun : run (System.step c) (init value mem) as = some s) :
    ∃ order, SerialOrder s.history (initStore c value) order ∧
      ∀ t txn mb, (t, txn, mb) ∈ s.started → (t, .commit) ∈ s.finished →
        (txn.cold ≠ [] → t ∈ order) ∧
        ∀ i op, txn.cold[i]? = some op →
          (op.mode = .write → .write ⟨t, i, op.id, true⟩ op.value ∈ s.history) ∧
          (op.mode = .read → ∃ pre post v, order = pre ++ t :: post ∧
            .read ⟨t, i, op.id, false⟩ v ∈ s.history ∧
            v = valueAfter s.history (initStore c value) pre op.id) := by
  obtain ⟨a, hc, h⟩ := exists_coupled_recorded hrun
  have hserial : SerialOrder s.history (initStore c value) a.order := hc.history ▸ hc.inv.serial
  refine ⟨a.order, hserial, fun t txn mb hstart hfin => ?_⟩
  obtain ⟨hcom, hrel, hperf⟩ := h.finished t hfin txn mb hstart
  have hmem : txn.cold ≠ [] → t ∈ a.order := fun hne =>
    (hserial.mem_iff t).mpr ⟨hcom, hrel hne⟩
  refine ⟨hmem, fun i op hop => ⟨(hperf i op hop).1, fun hmode => ?_⟩⟩
  obtain ⟨v, hread⟩ := (hperf i op hop).2 hmode
  obtain ⟨pre, post, horder⟩ :=
    List.append_of_mem (hmem (List.ne_nil_of_mem (List.mem_of_getElem? hop)))
  exact ⟨pre, post, v, horder, hread, hserial.reads pre t post horder _ v hread rfl⟩

/-! ### A run -/

/-- Two nodes with two keys each. -/
def twoNodes : Config := ⟨2, 4, 4⟩

/-- A transaction of node `n` with one operation. -/
def oneOp (n : ℕ) (k : DbKey) (mode : AccessMode) (value : BitVec 32) : Txn :=
  { (default : Txn) with
    coldOps := fun i =>
      if i = 0 then ⟨k, (twoNodes.part n).location k, mode, value⟩ else ⟨0, default, .invalid, 0⟩ }

/-- A message about the write of key 3 by thread 0 of node 0. -/
def aboutKey3 (type : MsgType) (pack tuple : BitVec 32) : TupleMsg :=
  ⟨type, ⟨0, 0⟩, 0, 3, .write, pack, tuple, ⟨⟨0, 0⟩, 1⟩, 0⟩

/-- Node 0 writes 7 to key 3 of node 1 in mini-batch 1, and node 1 reads it in mini-batch 2. -/
def writeThenRead : List Action :=
  let w : NodeT := ⟨0, 0⟩
  let r : NodeT := ⟨1, 0⟩
  let id := (TxnId.ofFields true 0 1).getPacked
  [.start w (oneOp 0 3 .write 7) (some 1), .thread w false,
    .deliver ⟨1, aboutKey3 .tupleGetReq id 0⟩,
    .deliver ⟨0, aboutKey3 .tupleGetRes (TxnId.ofFields true 0 0).getPacked 5⟩] ++
  List.replicate 7 (.thread w false) ++
  [.deliver ⟨1, aboutKey3 .tuplePutReq id 7⟩, .deliver ⟨0, aboutKey3 .tuplePutRes id 7⟩,
    .thread w false, .start r (oneOp 1 3 .read 0) (some 2)] ++
  List.replicate 8 (.thread r false)

/-- All rows hold 5 at first. -/
def allFive : System := init (fun _ _ => 5) fun _ _ => ⟨⟨⟨0, 0⟩, 0⟩, 0, 0, 0⟩

theorem serializable_writeThenRead :
    ∃ s, run (System.step twoNodes) allFive writeThenRead = some s ∧
      s.finished = [(⟨⟨1, 0⟩, 1⟩, .commit), (⟨⟨0, 0⟩, 1⟩, .commit)] ∧
      .read ⟨⟨⟨1, 0⟩, 1⟩, 0, 3, false⟩ 7 ∈ s.history ∧
      ∃ order, SerialOrder s.history (initStore twoNodes fun _ _ => 5) order := by
  have hrun : (run (System.step twoNodes) allFive writeThenRead).map (fun s =>
      (s.finished, decide (.read ⟨⟨⟨1, 0⟩, 1⟩, 0, 3, false⟩ 7 ∈ s.history))) =
      some ([(⟨⟨1, 0⟩, 1⟩, .commit), (⟨⟨0, 0⟩, 1⟩, .commit)], true) := by
    decide +kernel
  obtain ⟨s, hs, heq⟩ := Option.map_eq_some_iff.mp hrun
  obtain ⟨hfin, hread⟩ := Prod.mk.inj heq
  obtain ⟨order, hserial, -⟩ := serializable twoNodes _ _ writeThenRead s hs
  exact ⟨s, hs, hfin, of_decide_eq_true hread, order, hserial⟩

end System

end P4db
