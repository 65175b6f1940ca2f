import P4db.Ee.Equiv.HotOrder
import P4db.Ee.Equiv.Lockstep

/-!
# The loop of `txn_executor` keeps the discipline

A thread is in a call of `my_execute` only between two rounds of `wait_workers`, and the call
carries the number of the round (`CallsOk`).  So the entries of a hot send queue are sorted by
mini-batch and of the batch that is filled (`QueueOk`), and a hot period with a queue that is not
empty enters as many barriers as the other node expects (`Inv.punctual`).

* `wait_workers_safe`: the threads of both nodes go through the mini-batches together.
* `hot_period_alone`: no thread of a node is in a call during its hot period, and the assertion of
  `single_db_section` holds.
* `exists_disciplined_run`: the loop drives the executor through a run that is `Disciplined`.
-/

namespace P4db

namespace System

variable {c : Config} {s s' : System} {a : Action} {w : NodeT}

/-- A thread in a call was in it before, or has just begun it. -/
theorem busy_of_step (h : s.step c a = some s') (hw : (s'.threads w).phase ≠ .idle) :
    (s.threads w).phase ≠ .idle ∧ (s'.threads w).miniBatchNum = (s.threads w).miniBatchNum ∨
      ∃ txn, a = .start w txn (s'.threads w).miniBatchNum := by
  rcases step_cases h with hmove | ⟨f, -, rfl⟩
  · cases a with
    | start w' txn mb =>
      cases hmove with
      | @enter _ _ _ id hphase hplaced hid =>
        have hself : (s.enter w' { txn with id := id } mb).threads w' =
            ⟨.acquire 0, _, _, mb, []⟩ :=
          Function.update_self _ _ _
        have hother : w ≠ w' → (s.enter w' { txn with id := id } mb).threads w = s.threads w :=
          fun hne => Function.update_of_ne hne _ _
        by_cases hne : w = w'
        · subst hne
          right
          rw [hself]
          exact ⟨txn, rfl⟩
        · left
          rw [hother hne] at hw ⊢
          exact ⟨hw, rfl⟩
    | thread w' early =>
      left
      obtain ⟨ph, log, new, hadv⟩ := advances_of_move hmove
      rw [hadv.threads] at hw ⊢
      by_cases hne : w = w'
      · subst hne
        rw [Function.update_self]
        exact ⟨hadv.busy, rfl⟩
      · rw [Function.update_of_ne hne] at hw ⊢
        exact ⟨hw, rfl⟩
    | deliver p =>
      left
      obtain ⟨new, hhandles⟩ := handles_of_move hmove
      obtain ⟨log, hthread, -⟩ := hhandles.threads w
      rw [hthread] at hw ⊢
      exact ⟨hw, rfl⟩
    | doneSending m =>
      cases hmove
      exact .inl ⟨hw, rfl⟩
  · exact .inl ⟨hw, rfl⟩

/-- A thread claims an entry of the hot send queue of its node. -/
structure Claims (s s' : System) (w : NodeT) (mb : ℕ) (q : HotSendQ Attempt) : Prop where
  phase : (s.threads w).phase = .alloc
  miniBatchNum : (s.threads w).miniBatchNum = some mb
  alloc : (s.hotSendQ w.nid).allocSlot mb (s.attempt w) = some q
  hotSendQ : s'.hotSendQ = Function.update s.hotSendQ w.nid q
  slots : s'.slots = s.slots ++ [(s.attempt w, s.batch w.nid, (s.hotSendQ w.nid).sendQTail)]
  started : s'.started = s.started

/-- What steps do to the queues. -/
theorem queues_of_step (h : s.step c a = some s') (ha : ∀ m, a ≠ .doneSending m) :
    s'.hotSendQ = s.hotSendQ ∧ s'.slots = s.slots ∨ ∃ w mb q, Claims s s' w mb q := by
  rcases step_cases h with hmove | ⟨f, -, rfl⟩
  · cases hmove with
    | doneSending => exact absurd rfl (ha _)
    | alloc hphase hmb hq => exact .inr ⟨_, _, _, hphase, hmb, hq, rfl, rfl, rfl⟩
    | _ => exact .inl ⟨rfl, rfl⟩
  · exact .inl ⟨rfl, rfl⟩

theorem doneSending_of_step {m : ℕ} (h : s.step c (.doneSending m) = some s') :
    s'.hotSendQ = Function.update s.hotSendQ m (s.hotSendQ m).doneSending ∧
      s'.batch = Function.update s.batch m (s.batch m + 1) ∧ s'.slots = s.slots := by
  rcases step_cases h with hmove | ⟨f, hexec, -⟩
  · cases hmove
    exact ⟨rfl, rfl, rfl⟩
  · cases hexec

theorem started_of_step (h : s.step c a = some s') :
    s'.started = s.started ∨ ∃ w txn id mb, a = .start w txn mb ∧
      s'.started = (⟨w, (s.threads w).seq + 1⟩, { txn with id := id }, mb) :: s.started := by
  rcases step_cases h with hmove | ⟨f, -, rfl⟩
  · cases hmove with
    | enter => exact .inr ⟨_, _, _, _, rfl, rfl⟩
    | _ => exact .inl rfl
  · exact .inl rfl

theorem inBatch_of_step (h : s.step c a = some s') {t : Attempt} {m : ℕ} (ht : s.InBatch t m) :
    s'.InBatch t m := by
  rcases started_of_step h with heq | ⟨w, txn, id, mb, rfl, heq⟩
  · rw [InBatch, heq]
    exact ht
  · exact (inBatch_cons heq).mpr (.inr ht)

/-- A call that has not returned is the one that its thread is in. -/
theorem Recorded.busy (hr : Recorded s) {e : Attempt × Txn × Option ℕ} (he : e ∈ s.started)
    (hfin : ¬s.Finished e.1) :
    (s.threads e.1.worker).phase ≠ .idle ∧ (s.threads e.1.worker).miniBatchNum = e.2.2 := by
  rcases hr.running e he with hdone | ⟨hseq, hbusy⟩
  · exact absurd (finished_iff.mpr hdone) hfin
  · refine ⟨hbusy, ?_⟩
    have hatt : e.1 = ⟨e.1.worker, (s.threads e.1.worker).seq⟩ := by rw [← hseq]
    have heq := hr.unique he (hr.current _ hbusy) hatt
    rw [heq]

end System

namespace Lockstep

open Transition

variable {n : Bool → UInt32} {π : Type} {c : Config} {s s' : State n π} {a : Action n π}

/-! ### Who is in a call -/

theorem toNat_injective {i j : Bool} (h : i.toNat = j.toNat) : i = j := by
  revert h
  cases i <;> cases j <;> decide

theorem worker_injective {i j : Bool} {t : Fin (n i).toNat} {u : Fin (n j).toNat}
    (h : worker i t = worker j u) : (⟨i, t⟩ : (i : Bool) × Fin (n i).toNat) = ⟨j, u⟩ := by
  obtain ⟨hnid, htid⟩ := NodeT.mk.inj h
  obtain rfl := toNat_injective hnid
  rw [Fin.ext htid]

/-- Where a thread is when it is in a call of `my_execute`, with this mini-batch, or of
`execute`. -/
def State.Running (s : State n π) (i : Bool) (t : Fin (n i).toNat) : Option ℕ → Prop
  | some m => s.InMiniBatch i t ∧ s.round i t = m
  | none => ((s.batchBar i).thread t).pc = .inMiddle

def CallsOk (s : State n π) : Prop :=
  ∀ w, (s.sys.threads w).phase ≠ .idle → ∃ i t, w = worker i t ∧
    s.Running i t (s.sys.threads w).miniBatchNum

section

variable {i j : Bool} {t : Fin (n i).toNat} {u : Fin (n j).toNat} {mb : Option ℕ}

theorem stepLocal_thread_of_ne (h : (⟨j, u⟩ : (i : Bool) × Fin (n i).toNat) ≠ ⟨i, t⟩) :
    ((s.stepLocal i t).localBarrier j).thread u = (s.localBarrier j).thread u := by
  by_cases hj : j = i
  · subst hj
    have hu : u ≠ t := fun hu => h (hu ▸ rfl)
    simp only [State.stepLocal, Function.update_self]
    exact RBarrier.step_thread_of_ne hu
  · simp only [State.stepLocal, Function.update_of_ne hj]

theorem stepBatch_thread_of_ne (h : (⟨j, u⟩ : (i : Bool) × Fin (n i).toNat) ≠ ⟨i, t⟩) :
    ((s.stepBatch i t).batchBar j).thread u = (s.batchBar j).thread u := by
  by_cases hj : j = i
  · subst hj
    have hu : u ≠ t := fun hu => h (hu ▸ rfl)
    simp only [State.stepBatch, Function.update_self]
    exact RBarrier.step_thread_of_ne hu
  · simp only [State.stepBatch, Function.update_of_ne hj]

theorem State.Running.congr (h : s.Running j u mb)
    (hlocal : (s'.localBarrier j).thread u = (s.localBarrier j).thread u)
    (hbatch : (s'.batchBar j).thread u = (s.batchBar j).thread u) : s'.Running j u mb := by
  cases mb with
  | some m =>
    simpa only [State.Running, State.InMiniBatch, State.Outside, State.round, State.batchNum,
      hlocal, hbatch] using h
  | none => simpa only [State.Running, hbatch] using h

/-- A thread in a barrier is in a call only in the middle function of `batch_bar`. -/
theorem State.Running.ne_of_inWorkers (h : s.Running j u mb) (hok : BarriersOk s)
    (hin : ((s.localBarrier i).thread t).pc ≠ .outside) :
    (⟨j, u⟩ : (i : Bool) × Fin (n i).toNat) ≠ ⟨i, t⟩ := by
  intro heq
  cases heq
  cases mb with
  | some m => exact hin h.1.1.1
  | none =>
    have hpc : ((s.batchBar i).thread t).pc = .inMiddle := h
    have hbar : (s.view i).inBatchBar t := fun hout => by
      have hout : ((s.batchBar i).thread t).pc = .outside := hout
      rw [hpc] at hout
      cases hout
    exact (((hok.node i).threads t).inside hbar).1 hin

theorem State.Running.ne_of_inBatchBar (h : s.Running j u mb)
    (hin : ((s.batchBar i).thread t).pc ≠ .outside)
    (hmiddle : ((s.batchBar i).thread t).pc ≠ .inMiddle) :
    (⟨j, u⟩ : (i : Bool) × Fin (n i).toNat) ≠ ⟨i, t⟩ := by
  intro heq
  cases heq
  cases mb with
  | some m => exact hin h.1.1.2
  | none => exact hmiddle h

end

/-- A step of a thread in a barrier that is not in a call. -/
theorem CallsOk.of_ne (h : CallsOk s) (hsys : s'.sys = s.sys)
    (hne : ∀ j u, (s.sys.threads (worker j u)).phase ≠ .idle →
      s.Running j u (s.sys.threads (worker j u)).miniBatchNum →
      (s'.localBarrier j).thread u = (s.localBarrier j).thread u ∧
        (s'.batchBar j).thread u = (s.batchBar j).thread u) : CallsOk s' := by
  intro w hw
  rw [hsys] at hw ⊢
  obtain ⟨j, u, rfl, hrun⟩ := h w hw
  obtain ⟨hlocal, hbatch⟩ := hne j u hw hrun
  exact ⟨j, u, rfl, hrun.congr hlocal hbatch⟩

/-- A step of the executor. -/
theorem CallsOk.system (h : CallsOk s) {sys : System} {a : System.Action}
    (hsys : s.sys.step c a = some sys)
    (hstart : ∀ w txn mb, a = .start w txn mb → ∃ i t, w = worker i t ∧ s.Running i t mb) :
    CallsOk { s with sys := sys } := by
  intro w hw
  rcases System.busy_of_step hsys hw with ⟨hbusy, hmb⟩ | ⟨txn, ha⟩
  · rw [hmb]
    exact h w hbusy
  · exact hstart w txn _ ha

theorem CallsOk.move (h : CallsOk s) (hok : BarriersOk s) (hmove : Move c s a s') : CallsOk s' := by
  have idle : ∀ {i t}, s.Idle i t → ∀ {j u}, (s.sys.threads (worker j u)).phase ≠ .idle →
      (⟨j, u⟩ : (i : Bool) × Fin (n i).toNat) ≠ ⟨i, t⟩ := by
    rintro i t hidle j u hbusy heq
    cases heq
    exact hbusy hidle
  cases hmove with
  | call hmini hsys =>
    refine h.system hsys ?_
    rintro w txn mb heq
    cases heq
    exact ⟨_, _, rfl, hmini, rfl⟩
  | leftover hpc hsys =>
    refine h.system hsys ?_
    rintro w txn mb heq
    cases heq
    exact ⟨_, _, rfl, hpc⟩
  | exec hinner hsys =>
    refine h.system hsys ?_
    rintro w txn mb rfl
    cases hinner
  | arrive hpc hidle hbatch hmay =>
    exact h.of_ne rfl fun j u hbusy _ => ⟨stepLocal_thread_of_ne (idle hidle hbusy), rfl⟩
  | critical hpc hnodes =>
    exact h.of_ne rfl fun j u _ hrun =>
      ⟨stepLocal_thread_of_ne (hrun.ne_of_inWorkers hok (by rw [hpc]; decide)), rfl⟩
  | criticalEnd hpc hphase =>
    exact h.of_ne rfl fun j u _ hrun =>
      ⟨stepLocal_thread_of_ne (hrun.ne_of_inWorkers hok (by rw [hpc]; decide)), rfl⟩
  | goOn hout hbefore hin =>
    exact h.of_ne rfl fun j u _ hrun =>
      ⟨stepLocal_thread_of_ne (hrun.ne_of_inWorkers hok hout), rfl⟩
  | arriveBatch hpc hidle hend hhot =>
    exact h.of_ne rfl fun j u hbusy _ => ⟨rfl, stepBatch_thread_of_ne (idle hidle hbusy)⟩
  | @goOnBatch i t hpc hidle =>
    refine h.of_ne rfl fun j u hbusy hrun => ⟨rfl, stepBatch_thread_of_ne ?_⟩
    by_cases hmiddle : ((s.batchBar i).thread t).pc = .inMiddle
    · exact idle (hidle hmiddle) hbusy
    · exact hrun.ne_of_inBatchBar hpc hmiddle
  | doneSending hhot hphase hsys =>
    intro w hw
    rcases System.busy_of_step hsys hw with ⟨hbusy, hmb⟩ | ⟨txn, ha⟩
    · rw [hmb]
      exact h w hbusy
    · cases ha
  | _ => exact h

/-! ### The mini-batches of a batch -/

/-- The batch that the hot period of a node comes to next, and the mini-batches of its threads. -/
theorem BarriersOk.range_of_inMiniBatch (h : BarriersOk s) {i : Bool} {t : Fin (n i).toNat}
    (hmini : s.InMiniBatch i t) :
    roundsPerBatch * s.sys.batch i.toNat + 1 ≤ s.round i t ∧
      s.round i t ≤ roundsPerBatch * (s.sys.batch i.toNat + 1) := by
  set l : Fin (n i).toNat := ⟨0, t.pos⟩
  obtain ⟨⟨hout, hbar⟩, hpos, hle⟩ := hmini
  have hlead : LeaderOk (s.view i) l := (h.node i).leader l rfl
  have hround : s.round i l ≤ s.round i t := by
    have hentered : s.entered i t = s.round i t :=
      View.entered_of_outside (v := s.view i) (not_not.mpr hout)
    exact (h.round_le_entered i l i t).trans_eq hentered
  have hb : s.batchNum i l ≤ s.sys.batch i.toNat ∧
      s.sys.batch i.toNat ≤ s.batchNum i l + 1 := hlead.le
  have hdone : s.sys.batch i.toNat = s.batchNum i l + 1 →
      s.round i l = roundsPerBatch * (s.batchNum i l + 1) + 1 :=
    fun heq => (hlead.done heq).2
  have hlow : s.batchNum i l = 0 ∨ roundsPerBatch * s.batchNum i l + 1 ≤ s.round i l :=
    ((h.node i).threads l).low
  -- the leader is in the barrier at the end of the batch, or has left it as often as its hot
  -- periods
  have hbatch : s.batchNum i t ≤ s.sys.batch i.toNat := by
    have hle : s.batchNum i t ≤ ((s.batchBar i).thread l).entered :=
      RBarrier.round_le_entered (h.node i).batches t l
    unfold RBarrier.Thread.entered at hle
    split_ifs at hle with hpc
    · exact hle.trans hb.1
    · exact hle.trans_eq (hlead.inside hpc).symm
  rw [roundsPerBatch_eq] at *
  constructor
  · rcases Nat.lt_or_ge (s.sys.batch i.toNat) (s.batchNum i l + 1) with hlt | hge
    · omega
    · have := hdone (by omega)
      omega
  · omega

/-! ### The hot send queue -/

/-- The queue of a node: sorted, with mini-batches of the batch, and no thread is behind its
entries; it is empty from the hot period until a thread leaves `batch_bar`. -/
structure QueueOk {k : UInt32} (q : HotSendQ Attempt) (v : View k π) : Prop where
  sorted : HotPeriod.SortedQ q.sendQ q.sendQTail (roundsPerBatch * v.batch + 1)
    (roundsPerBatch * (v.batch + 1) + 1)
  entered : ∀ j < q.sendQTail, ∀ u, (q.sendQ j).miniBatchNum ≤ v.entered u
  empty : ∀ l : Fin k.toNat, l.val = 0 → v.batch = v.batchNum l + 1 →
    (∀ u, v.batchNum u ≤ v.batchNum l) → q.sendQTail = 0

section QueueOk

variable {k : UInt32} {v v' : View k π} {q q' : HotSendQ Attempt} {t : Fin k.toNat}

theorem queueOk_of_empty (h : q.sendQTail = 0) (v : View k π) : QueueOk q v where
  sorted := by
    rw [h]
    exact ⟨nofun, nofun, nofun⟩
  entered := by
    rw [h]
    exact nofun
  empty _ _ _ _ := h

theorem round_le_of_move (h : v.Move v') (u : Fin k.toNat) : v.round u ≤ v'.round u := by
  have stepped : ∀ t, v.round u ≤ (v.stepLocal t).round u := by
    intro t
    rcases eq_or_ne u t with rfl | hu
    · by_cases hin : v.inWorkers u
      · exact (View.stepLocal_inside hin).1
      · exact (View.stepLocal_outside hin).2.1.ge
    · exact (congrArg RBarrier.Thread.round (View.stepLocal_thread_of_ne hu)).ge
  cases h with
  | arrive | critical | criticalEnd | goOn => exact stepped _
  | _ => exact Nat.le_refl _

theorem entered_le_of_move (h : v.Move v') (u : Fin k.toNat) : v.entered u ≤ v'.entered u := by
  have inside : ∀ {t}, v.inWorkers t → v.entered u ≤ (v.stepLocal t).entered u :=
    fun hin => (NodeOk.entered_stepLocal hin u).ge
  cases h with
  | @arrive t hout hbatch hmay =>
    rcases eq_or_ne u t with rfl | hu
    · rw [(View.stepLocal_outside hout).2.2, View.entered_of_outside hout]
      exact Nat.le_succ _
    · exact (congrArg RBarrier.Thread.entered (View.stepLocal_thread_of_ne hu)).ge
  | critical hpc henter => exact inside (fun hout => by rw [hpc] at hout; cases hout)
  | criticalEnd hpc hphase => exact inside (fun hout => by rw [hpc] at hout; cases hout)
  | goOn hin hbefore hmiddle => exact inside hin
  | _ => exact Nat.le_refl _

/-- A thread that leaves `batch_bar`, or anything else. -/
theorem batchNum_of_move (h : v.Move v') (u : Fin k.toNat) :
    v'.batchNum u = v.batchNum u ∨ v'.batchNum u = v.batchNum u + 1 ∧ v.inBatchBar u := by
  cases h with
  | @arriveBatch t hend hhot =>
    rcases eq_or_ne u t with rfl | hu
    · exact .inl (RBarrier.step_thread_of_outside (not_not.mp hend.2.1)).2
    · exact .inl (congrArg RBarrier.Thread.round (View.stepBatch_thread_of_ne hu))
  | @goOnBatch t hin =>
    rcases eq_or_ne u t with rfl | hu
    · exact (RBarrier.step_thread_of_inside hin).imp (fun h => h.2) fun h => ⟨h.2, hin⟩
    · exact .inl (congrArg RBarrier.Thread.round (View.stepBatch_thread_of_ne hu))
  | _ => exact .inl rfl

/-- The barriers go on. -/
theorem QueueOk.move (h : QueueOk q v) (hok : NodeOk v) (hmove : v.Move v')
    (hbatch : v'.batch = v.batch) : QueueOk q v' where
  sorted := by
    rw [hbatch]
    exact h.sorted
  entered j hj u := (h.entered j hj u).trans (entered_le_of_move hmove u)
  empty l hl hnext hall := by
    rw [hbatch] at hnext
    -- if the leader has left, its next hot period is still to come
    rcases batchNum_of_move hmove l with hsame | ⟨hleft, hin⟩
    · refine h.empty l hl (hnext.trans (congrArg (· + 1) hsame)) fun u => ?_
      have hu := hall u
      rw [hsame] at hu
      rcases batchNum_of_move hmove u with heq | ⟨heq, -⟩ <;> omega
    · have := (hok.leader l hl).inside hin
      omega

/-- A thread claims an entry. -/
theorem QueueOk.alloc (h : QueueOk q v) {m : ℕ} {txn : Attempt}
    (halloc : q.allocSlot m txn = some q') (hlow : roundsPerBatch * v.batch + 1 ≤ m)
    (hhigh : m ≤ roundsPerBatch * (v.batch + 1)) (hthread : v.entered t = m)
    (hall : ∀ u, m ≤ v.entered u) (hnum : m ≤ roundsPerBatch * (v.batchNum t + 1)) :
    QueueOk q' v := by
  obtain ⟨htail, hq⟩ := HotSendQ.allocSlot_eq_some halloc
  have hnew : (q'.sendQ q.sendQTail).miniBatchNum = m := by rw [hq, Function.update_self]
  have hold : ∀ j < q.sendQTail, q'.sendQ j = q.sendQ j := fun j hj => by
    rw [hq, Function.update_of_ne (Nat.ne_of_lt hj)]
  refine ⟨⟨fun i j hij hj => ?_, fun j hj => ?_, fun j hj => ?_⟩, fun j hj u => ?_,
    fun l hl hnext hle => ?_⟩
  · rcases Nat.lt_or_ge j q.sendQTail with hlt | hge
    · rw [hold j hlt, hold i (by omega)]
      exact h.sorted.mono i j hij hlt
    · -- no thread is behind the entries
      obtain rfl : j = q.sendQTail := by omega
      rcases Nat.eq_or_lt_of_le hij with rfl | hlt
      · exact Nat.le_refl _
      · rw [hnew, hold i hlt]
        exact (h.entered i hlt t).trans_eq hthread
  · rcases Nat.lt_or_ge j q.sendQTail with hlt | hge
    · rw [hold j hlt]
      exact h.sorted.ge j hlt
    · obtain rfl : j = q.sendQTail := by omega
      rwa [hnew]
  · rcases Nat.lt_or_ge j q.sendQTail with hlt | hge
    · rw [hold j hlt]
      exact h.sorted.lt j hlt
    · obtain rfl : j = q.sendQTail := by omega
      rw [hnew]
      exact Nat.lt_succ_of_le hhigh
  · rcases Nat.lt_or_ge j q.sendQTail with hlt | hge
    · rw [hold j hlt]
      exact h.entered j hlt u
    · obtain rfl : j = q.sendQTail := by omega
      rw [hnew]
      exact hall u
  · -- the thread has left `batch_bar` before the leader
    have hbt := hle t
    rw [roundsPerBatch_eq] at *
    omega

end QueueOk

/-! ### Both nodes -/

/-- The barriers, the calls and the queues are in order. -/
structure Inv (s : State n π) : Prop where
  barriers : BarriersOk s
  calls : CallsOk s
  queues : ∀ i, QueueOk (s.sys.hotSendQ i.toNat) (s.view i)

/-- A hot period begins with a queue that is not empty. -/
def Filled (s : State n π) : Action n π → Prop
  | .runHotPeriod i _ _ _ => 0 < (s.sys.hotSendQ i.toNat).sendQTail
  | _ => True

instance (s : State n π) : (a : Action n π) → Decidable (Filled s a)
  | .runHotPeriod _ _ _ _ => inferInstanceAs (Decidable (_ < _))
  | .main _ | .call _ _ _ | .leftover _ _ _ | .exec _ | .waitWorkers _ _ | .batchBar _ _
  | .barrier _ | .hotEvent _
  | .doneSending _ => inferInstanceAs (Decidable True)

/-- Then it has as many barriers as it should. -/
theorem Inv.punctual (h : Inv s) (hf : Filled s a) (hmove : Move c s a s') : Punctual s a := by
  cases hmove with
  | @runHotPeriod i t startFill endFill evs ht hidle hend hbatch hnone hrun =>
    intro evs' hevs'
    have hpast : s.pastMbNum i = roundsPerBatch * s.sys.batch i.toNat + 1 :=
      (h.barriers.node i).past
    have hround : s.round i t = roundsPerBatch * (s.sys.batch i.toNat + 1) + 1 := hbatch ▸ hend.2
    have hsorted : HotPeriod.SortedQ (s.sys.hotSendQ i.toNat).sendQ
        (s.sys.hotSendQ i.toNat).sendQTail (s.pastMbNum i) (s.round i t) := by
      rw [hpast, hround]
      exact (h.queues i).sorted
    obtain ⟨evs'', hevs'', hcount⟩ := HotPeriod.runHotPeriod_spec startFill endFill _ hsorted
    obtain rfl := Option.some.inj (hevs'.symm.trans hevs'')
    have hpos : 0 < (s.sys.hotSendQ i.toNat).sendQTail := hf
    rw [hcount, if_pos hpos, hpast, hround, roundsPerBatch_eq, waitsPerPeriod_eq]
    omega
  | _ => trivial

/-- A thread that claims an entry is in the mini-batch of the entry. -/
theorem Inv.claims (h : Inv s) {sys : System} {w : NodeT} {mb : ℕ} {q : HotSendQ Attempt}
    (hclaim : System.Claims s.sys sys w mb q) :
    ∃ i t, w = worker i t ∧ s.InMiniBatch i t ∧ s.round i t = mb := by
  have hbusy : (s.sys.threads w).phase ≠ .idle := by
    rw [hclaim.phase]
    exact nofun
  obtain ⟨i, t, hw, hrun⟩ := h.calls w hbusy
  rw [hclaim.miniBatchNum] at hrun
  exact ⟨i, t, hw, hrun⟩

/-- The queues after a step of the executor. -/
theorem Inv.queues_system (h : Inv s) {sys : System} {a : System.Action}
    (hsys : s.sys.step c a = some sys) (ha : ∀ m, a ≠ .doneSending m) (i : Bool) :
    QueueOk (sys.hotSendQ i.toNat) (State.view { s with sys := sys } i) := by
  have hview : State.view { s with sys := sys } i = s.view i :=
    view_congr rfl rfl rfl (congrFun (batch_of_step hsys ha) _) rfl rfl
  rw [hview]
  rcases System.queues_of_step hsys ha with ⟨heq, -⟩ | ⟨w, mb, q, hclaim⟩
  · rw [heq]
    exact h.queues i
  · obtain ⟨j, t, rfl, hmini, hround⟩ := h.claims hclaim
    rw [hclaim.hotSendQ]
    by_cases hi : i = j
    · subst hi
      obtain ⟨hlow, hhigh⟩ := h.barriers.range_of_inMiniBatch hmini
      have hentered : s.entered i t = s.round i t :=
        View.entered_of_outside (v := s.view i) (not_not.mpr hmini.1.1)
      have hself : Function.update s.sys.hotSendQ (worker i t).nid q i.toNat = q :=
        Function.update_self _ _ _
      rw [hself]
      rw [hround] at hlow hhigh hentered
      refine (h.queues i).alloc hclaim.alloc hlow hhigh hentered (fun u => ?_) (hround ▸ hmini.2.2)
      rw [← hround]
      exact h.barriers.round_le_entered i t i u
    · have hne : i.toNat ≠ (worker j t).nid := fun heq => hi (toNat_injective heq)
      rw [Function.update_of_ne hne]
      exact h.queues i

theorem Inv.move (h : Inv s) (hf : Filled s a) (hmove : Move c s a s') : Inv s' := by
  have hp := h.punctual hf hmove
  have hbarriers := h.barriers.move hp hmove
  have hview := hmove.view hp
  refine ⟨hbarriers, h.calls.move h.barriers hmove, fun i => ?_⟩
  cases hmove with
  | call hmini hsys => exact h.queues_system hsys nofun i
  | leftover hpc hsys => exact h.queues_system hsys nofun i
  | exec hinner hsys =>
    refine h.queues_system hsys ?_ i
    rintro m rfl
    cases hinner
  | @doneSending j mb done sys hhot hphase hsys =>
    obtain ⟨hq, hb, -⟩ := System.doneSending_of_step hsys
    by_cases hi : i = j
    · subst hi
      refine queueOk_of_empty ?_ _
      show (sys.hotSendQ i.toNat).sendQTail = 0
      rw [hq, Function.update_self]
      rfl
    · have hne : i.toNat ≠ j.toNat := fun heq => hi (toNat_injective heq)
      have hsame : sys.hotSendQ i.toNat = s.sys.hotSendQ i.toNat := by
        rw [hq, Function.update_of_ne hne]
      have hbatch : sys.batch i.toNat = s.sys.batch i.toNat := by rw [hb, Function.update_of_ne hne]
      show QueueOk (sys.hotSendQ i.toNat) _
      rw [hsame]
      exact (h.queues i).move (h.barriers.node i) (hview i) hbatch
  | _ => exact (h.queues i).move (h.barriers.node i) (hview i) rfl

theorem inv_init (value : ℕ → DbKey → BitVec 32) (mem : ℕ → ℕ → HotTxnEntry Attempt) :
    Inv (State.init value mem : State n π) :=
  ⟨barriersOk_init value mem, fun _ hw => absurd rfl hw, fun _ => queueOk_of_empty rfl _⟩

theorem inv_of_run {value : ℕ → DbKey → BitVec 32} {mem : ℕ → ℕ → HotTxnEntry Attempt}
    {as : List (Action n π)} (hf : AlongRun (step c) Filled (State.init value mem) as)
    (hrun : run (step c) (State.init value mem) as = some s) : Inv s :=
  run_invariant_of_along (fun _ _ _ h hf hstep => h.move hf (move_of_step hstep))
    (inv_init value mem) hf hrun

/-- Only write operations. -/
def WriteOnly : Action n π → Prop
  | .call _ _ txn | .leftover _ _ txn => ∀ op ∈ txn.cold, op.mode = .write
  | _ => True

instance : (a : Action n π) → Decidable (WriteOnly a)
  | .call _ _ txn | .leftover _ _ txn =>
    inferInstanceAs (Decidable (∀ op ∈ txn.cold, op.mode = .write))
  | .main _ | .exec _ | .waitWorkers _ _ | .batchBar _ _ | .barrier _ | .runHotPeriod _ _ _ _
  | .hotEvent _
  | .doneSending _ => inferInstanceAs (Decidable True)

/-- The hot periods begin with queues that are not empty, and the transactions write only. -/
def Regular (s : State n π) (a : Action n π) : Prop := Filled s a ∧ WriteOnly a

instance (s : State n π) (a : Action n π) : Decidable (Regular s a) :=
  inferInstanceAs (Decidable (_ ∧ _))

/-! ### A run -/

/-- One worker on each node. -/
def oneWorker (_ : Bool) : UInt32 := 1

def theWorker (i : Bool) : Fin (oneWorker i).toNat := ⟨0, Nat.one_pos⟩

/-- Both nodes leave the barrier between them. -/
def leaveBoth : List (Action oneWorker π) :=
  [.barrier (.deliver false), .barrier (.observe false), .barrier (.finish false),
    .barrier (.deliver true), .barrier (.observe true), .barrier (.finish true)]

/-- `wait_workers` on both nodes. -/
def roundBoth : List (Action oneWorker π) :=
  List.replicate 3 (.waitWorkers false (theWorker false)) ++
    List.replicate 3 (.waitWorkers true (theWorker true)) ++
  leaveBoth ++
  List.replicate 3 (.waitWorkers false (theWorker false)) ++
    List.replicate 3 (.waitWorkers true (theWorker true))

/-- Node 0 writes key 3 of node 1 in mini-batch 1, and node 1 writes it in mini-batch 2.  Then both
nodes come to their hot periods and send the packets of the two transactions. -/
def twoWrites : List (Action oneWorker Unit) :=
  let id := (TxnId.ofFields true 0 1).getPacked
  [.main false, .main true] ++ leaveBoth ++ roundBoth ++
  [.call false (theWorker false) (System.oneOp 0 3 .write 7), .exec (.thread ⟨0, 0⟩ false),
    .exec (.deliver ⟨1, System.aboutKey3 .tupleGetReq id 0⟩),
    .exec (.deliver ⟨0, System.aboutKey3 .tupleGetRes (TxnId.ofFields true 0 0).getPacked 5⟩)] ++
  List.replicate 7 (.exec (.thread ⟨0, 0⟩ false)) ++
  [.exec (.deliver ⟨1, System.aboutKey3 .tuplePutReq id 7⟩),
    .exec (.deliver ⟨0, System.aboutKey3 .tuplePutRes id 7⟩), .exec (.thread ⟨0, 0⟩ false)] ++
  roundBoth ++
  .call true (theWorker true) (System.oneOp 1 3 .write 8) ::
    List.replicate 8 (.exec (.thread ⟨1, 0⟩ false)) ++
  (List.replicate 20 roundBoth).flatten ++
  [.runHotPeriod false (theWorker false) [()] [], .runHotPeriod true (theWorker true) [] [],
    .hotEvent false, .hotEvent false, .hotEvent true] ++ leaveBoth ++
  [.hotEvent false, .hotEvent false, .hotEvent true] ++ leaveBoth ++ [.hotEvent true]

/-- All rows hold 5. -/
def bothStart : State oneWorker Unit := State.init (fun _ _ => 5) fun _ _ => ⟨⟨⟨0, 0⟩, 0⟩, 0, 0, 0⟩

theorem regular_twoWrites : AlongRun (step System.twoNodes) Regular bothStart twoWrites := by
  decide +kernel

theorem filled_twoWrites : AlongRun (step System.twoNodes) Filled bothStart twoWrites :=
  regular_twoWrites.imp fun _ _ h => h.1

/-! ### What the barriers are for -/

/-- **The threads of both nodes go through the mini-batches together.**  When every hot period
begins with a queue that is not empty, a thread leaves `wait_workers` for the `r`-th time only after
all threads of both nodes have entered it `r` times; and `critical_wait` is called only when no
other call of `wait_nodes` on the node is still going on. -/
theorem wait_workers_safe (c : Config) (value : ℕ → DbKey → BitVec 32)
    (mem : ℕ → ℕ → HotTxnEntry Attempt) (as : List (Action n π)) (s : State n π)
    (hf : AlongRun (step c) Filled (State.init value mem) as)
    (hrun : run (step c) (State.init value mem) as = some s) :
    (∀ i t j u, s.round i t ≤ s.entered j u) ∧
      ∀ i t, ((s.localBarrier i).thread t).pc = .beforeMiddle → (s.nodes i).phase = .outside := by
  have hinv := inv_of_run hf hrun
  exact ⟨hinv.barriers.round_le_entered, fun i t => (hinv.barriers.node i).outside_of_beforeMiddle⟩

/-- Both threads have been through all mini-batches of the first batch. -/
theorem wait_workers_safe_twoWrites :
    ∃ s, AlongRun (step System.twoNodes) Filled bothStart twoWrites ∧
      run (step System.twoNodes) bothStart twoWrites = some s ∧
        s.round false (theWorker false) = 22 ∧
      22 ≤ s.entered true (theWorker true) := by
  have hrun : (run (step System.twoNodes) bothStart twoWrites).map
      (fun s => s.round false (theWorker false)) = some 22 := by
    decide +kernel
  obtain ⟨s, hs, hround⟩ := Option.map_eq_some_iff.mp hrun
  obtain ⟨hsafe, -⟩ := wait_workers_safe System.twoNodes _ _ twoWrites s filled_twoWrites hs
  exact ⟨s, filled_twoWrites, hs, hround,
    hround ▸ hsafe false (theWorker false) true (theWorker true)⟩

/-- In the middle function of `batch_bar`. -/
theorem Inv.empty_of_inMiddle (h : Inv s) {i : Bool} {t : Fin (n i).toNat}
    (hpc : ((s.batchBar i).thread t).pc = .inMiddle) : (s.sys.hotSendQ i.toNat).sendQTail = 0 := by
  set l : Fin (n i).toNat := ⟨0, t.pos⟩
  have htogether := RBarrier.together_of_inMiddle (h.barriers.node i).batches hpc
  refine (h.queues i).empty l rfl
    (((h.barriers.node i).leader l rfl).inside (htogether l).1) fun u => ?_
  exact ((htogether u).2.trans (htogether l).2.symm).le

/-- In the hot period. -/
theorem Inv.idle_of_hot (h : Inv s) {i : Bool} (hhot : s.hot i ≠ none) (t : Fin (n i).toNat) :
    s.Idle i t := by
  set l : Fin (n i).toNat := ⟨0, t.pos⟩
  obtain ⟨hbatch, -, hbar, hround⟩ := ((h.barriers.node i).leader l rfl).hot hhot
  have hround : s.round i l = roundsPerBatch * (s.batchNum i l + 1) + 1 := hround
  by_contra hbusy
  obtain ⟨j, u, hw, hrun⟩ := h.calls (worker i t) hbusy
  cases worker_injective hw
  cases hmb : (s.sys.threads (worker i t)).miniBatchNum with
  | some m =>
    -- the leader has left the last mini-batch of the batch
    rw [hmb] at hrun
    have hmini : s.InMiniBatch i t := hrun.1
    have hhigh := (h.barriers.range_of_inMiniBatch hmini).2
    have hle := h.barriers.round_le_entered i l i t
    have hentered : s.entered i t = s.round i t :=
      View.entered_of_outside (v := s.view i) (not_not.mpr hmini.1.1)
    have hbatch : s.sys.batch i.toNat = s.batchNum i l := hbatch
    rw [hround, hentered, ← hbatch] at hle
    omega
  | none =>
    rw [hmb] at hrun
    exact hbar (RBarrier.together_of_inMiddle (h.barriers.node i).batches hrun l).1

/-- **A node is quiet during its hot period.**  No thread of it is in a call then; and the assertion
at the end of `single_db_section`, that the hot send queue is empty, holds whenever a thread comes
to it. -/
theorem hot_period_alone (c : Config) (value : ℕ → DbKey → BitVec 32)
    (mem : ℕ → ℕ → HotTxnEntry Attempt) (as : List (Action n π)) (s : State n π)
    (hf : AlongRun (step c) Filled (State.init value mem) as)
    (hrun : run (step c) (State.init value mem) as = some s) (i : Bool) (t : Fin (n i).toNat) :
    (s.hot i ≠ none → s.Idle i t) ∧
      (((s.batchBar i).thread t).pc = .inMiddle → (s.sys.hotSendQ i.toNat).sendQTail = 0) := by
  have hinv := inv_of_run hf hrun
  exact ⟨fun hhot => hinv.idle_of_hot hhot t, hinv.empty_of_inMiddle⟩

theorem hot_period_alone_twoWrites :
    ∃ s, AlongRun (step System.twoNodes) Filled bothStart twoWrites ∧
      run (step System.twoNodes) bothStart twoWrites = some s ∧ s.hot true ≠ none ∧
        s.Idle true (theWorker true) := by
  have hrun : (run (step System.twoNodes) bothStart twoWrites).map (fun s => (s.hot true).isSome) =
      some true := by
    decide +kernel
  obtain ⟨s, hs, hhot⟩ := Option.map_eq_some_iff.mp hrun
  have hne : s.hot true ≠ none := Option.isSome_iff_ne_none.mp hhot
  have halone := hot_period_alone System.twoNodes _ _ twoWrites s filled_twoWrites hs true
    (theWorker true)
  exact ⟨s, filled_twoWrites, hs, hne, halone.1 hne⟩

/-! ### The discipline -/

/-- What a run of the loop has done so far. -/
structure Driven (c : Config) (store₀ : DbKey → BitVec 32) (s : State n π) : Prop where
  inv : Inv s
  good : System.Good c store₀ s.sys
  started : ∀ e ∈ s.sys.started, ∀ m ∈ e.2.2, ∃ i t, e.1.worker = worker i t ∧ m ≤ s.round i t
  slots : ∀ e ∈ s.sys.slots, ∃ m, s.sys.InBatch e.1 m ∧ roundsPerBatch * e.2.1 + 1 ≤ m ∧
    m ≤ roundsPerBatch * (e.2.1 + 1)

section Driven

variable {store₀ : DbKey → BitVec 32} {i : Bool} {t : Fin (n i).toNat}

theorem State.InMiniBatch.entered_eq (h : s.InMiniBatch i t) : s.entered i t = s.round i t :=
  if_pos h.1.1

/-- A call that has not returned is in the mini-batch that its thread is in. -/
theorem Driven.inMiniBatch_of_unfinished (h : Driven c store₀ s) {e : Attempt × Txn × Option ℕ}
    (he : e ∈ s.sys.started) {m : ℕ} (hm : e.2.2 = some m) (hfin : ¬s.sys.Finished e.1) :
    ∃ j u, e.1.worker = worker j u ∧ s.InMiniBatch j u ∧ s.round j u = m := by
  obtain ⟨hbusy, hmb⟩ := h.good.recorded.busy he hfin
  obtain ⟨j, u, hw, hrun⟩ := h.inv.calls _ hbusy
  rw [hmb, hm] at hrun
  exact ⟨j, u, hw, hrun⟩

/-- A mini-batch begins when the calls of the earlier ones have returned. -/
theorem Driven.disciplined_call (h : Driven c store₀ s) (hmini : s.InMiniBatch i t) {txn : Txn}
    (hwrite : ∀ op ∈ txn.cold, op.mode = .write) :
    s.sys.Disciplined (.start (worker i t) txn (some (s.round i t))) := by
  refine ⟨hwrite, fun m hm => ?_⟩
  obtain rfl := Option.some.inj hm
  refine ⟨fun e he m' hm' => ⟨?_, fun hlt => ?_⟩, fun e he hnid hlt hin => ?_⟩
  · obtain ⟨j, u, -, hle⟩ := h.started e he m' hm'
    exact hle.trans ((h.inv.barriers.round_le_entered j u i t).trans_eq hmini.entered_eq)
  · by_contra hfin
    obtain ⟨j, u, -, hmini', hround⟩ := h.inMiniBatch_of_unfinished he hm' hfin
    have hle := h.inv.barriers.round_le_entered i t j u
    rw [hmini'.entered_eq] at hle
    omega
  · -- the slot is of an earlier batch
    obtain ⟨m', hin', -, hhigh⟩ := h.slots e he
    obtain ⟨txn₁, hmem₁⟩ := System.inBatch_iff.mp hin
    obtain ⟨txn₂, hmem₂⟩ := System.inBatch_iff.mp hin'
    have heq : some (s.round i t) = some m' :=
      congrArg (fun e => e.2.2) (h.good.recorded.unique hmem₁ hmem₂ rfl)
    have hlow := (h.inv.barriers.range_of_inMiniBatch hmini).1
    have hlt : e.2.1 < s.sys.batch i.toNat := hlt
    have heq := Option.some.inj heq
    rw [roundsPerBatch_eq] at *
    omega

/-- A queue is emptied when the calls of the node have returned. -/
theorem Driven.disciplined_doneSending (h : Driven c store₀ s) (hhot : s.hot i ≠ none) :
    s.sys.Disciplined (.doneSending i.toNat) := by
  intro e he hnid hmb
  by_contra hfin
  obtain ⟨m, hm⟩ := Option.ne_none_iff_exists'.mp hmb
  obtain ⟨j, u, hw, -, -⟩ := h.inMiniBatch_of_unfinished he hm hfin
  have hij : j = i := toNat_injective (by rw [← hnid, hw]; rfl)
  subst hij
  have hbusy := (h.good.recorded.busy he hfin).1
  rw [hw] at hbusy
  exact hbusy (h.inv.idle_of_hot hhot u)

/-- The step of the executor that a step of the loop makes. -/
def Action.sys (s : State n π) : Action n π → Option System.Action
  | .call i t txn => some (.start (worker i t) txn (some (s.round i t)))
  | .leftover i t txn => some (.start (worker i t) txn none)
  | .exec b => some b
  | .doneSending i => some (.doneSending i.toNat)
  | _ => none

theorem sys_of_move (h : Move c s a s') :
    a.sys s = none ∧ s'.sys = s.sys ∨ ∃ b, a.sys s = some b ∧ s.sys.step c b = some s'.sys := by
  cases h with
  | call hmini hsys => exact .inr ⟨_, rfl, hsys⟩
  | leftover hpc hsys => exact .inr ⟨_, rfl, hsys⟩
  | exec hinner hsys => exact .inr ⟨_, rfl, hsys⟩
  | doneSending hhot hphase hsys => exact .inr ⟨_, rfl, hsys⟩
  | _ => exact .inl ⟨rfl, rfl⟩

theorem Driven.disciplined (h : Driven c store₀ s) (hw : WriteOnly a) (hmove : Move c s a s')
    {b : System.Action} (hb : a.sys s = some b) : s.sys.Disciplined b := by
  cases hmove with
  | call hmini hsys =>
    obtain rfl := Option.some.inj hb
    exact h.disciplined_call hmini hw
  | leftover hpc hsys =>
    obtain rfl := Option.some.inj hb
    exact ⟨hw, nofun⟩
  | @exec a _ hinner hsys =>
    obtain rfl := Option.some.inj hb
    cases a with
    | thread | deliver => trivial
    | start | doneSending => cases hinner
  | doneSending hhot hphase hsys =>
    obtain rfl := Option.some.inj hb
    refine h.disciplined_doneSending ?_
    rw [hhot]
    exact nofun
  | _ => cases hb

/-- The calls that have begun. -/
theorem Driven.started_move (h : Driven c store₀ s) (hf : Filled s a) (hmove : Move c s a s') :
    ∀ e ∈ s'.sys.started, ∀ m ∈ e.2.2, ∃ i t, e.1.worker = worker i t ∧ m ≤ s'.round i t := by
  have hview := hmove.view (h.inv.punctual hf hmove)
  have hround : ∀ i t, s.round i t ≤ s'.round i t := fun i t => round_le_of_move (hview i) t
  have hold : ∀ e ∈ s.sys.started, ∀ m ∈ e.2.2, ∃ i t, e.1.worker = worker i t ∧
      m ≤ s'.round i t := by
    intro e he m hm
    obtain ⟨i, t, hw, hle⟩ := h.started e he m hm
    exact ⟨i, t, hw, hle.trans (hround i t)⟩
  rcases sys_of_move hmove with ⟨-, heq⟩ | ⟨b, hb, hsys⟩
  · rw [heq]
    exact hold
  · rcases System.started_of_step hsys with heq | ⟨w, txn, id, mb, rfl, heq⟩
    · rw [heq]
      exact hold
    · -- only `my_execute` is called with a mini-batch
      rw [heq]
      intro e he m hm
      rcases List.mem_cons.mp he with rfl | he
      · obtain rfl : mb = some m := hm
        cases hmove with
        | call hmini hsys =>
          obtain ⟨rfl, -, hmb⟩ := System.Action.start.inj (Option.some.inj hb)
          exact ⟨_, _, rfl, (Option.some.inj hmb).ge⟩
        | leftover hpc hsys => cases hb
        | exec hinner hsys =>
          obtain rfl := Option.some.inj hb
          cases hinner
        | _ => cases hb
      · exact hold e he m hm

/-- Slots are only added, by threads that claim them. -/
theorem slots_of_move (hmove : Move c s a s') :
    s'.sys.slots = s.sys.slots ∨ ∃ w mb q, System.Claims s.sys s'.sys w mb q := by
  rcases sys_of_move hmove with ⟨-, heq⟩ | ⟨b, -, hsys⟩
  · exact .inl (by rw [heq])
  by_cases hdone : ∃ m, b = .doneSending m
  · obtain ⟨m, rfl⟩ := hdone
    exact .inl (System.doneSending_of_step hsys).2.2
  · exact (System.queues_of_step hsys fun m hm => hdone ⟨m, hm⟩).imp_left And.right

theorem inBatch_of_move (hmove : Move c s a s') {e : Attempt} {m : ℕ} (h : s.sys.InBatch e m) :
    s'.sys.InBatch e m := by
  rcases sys_of_move hmove with ⟨-, heq⟩ | ⟨b, -, hsys⟩
  · rwa [heq]
  · exact System.inBatch_of_step hsys h

theorem inBatch_of_claims {sys sys' : System} {w : NodeT} {mb : ℕ} {q : HotSendQ Attempt}
    (hr : System.Recorded sys) (hclaim : System.Claims sys sys' w mb q) :
    sys.InBatch (sys.attempt w) mb := by
  have hcur := hr.current w (by rw [hclaim.phase]; exact nofun)
  rw [hclaim.miniBatchNum] at hcur
  exact System.inBatch_iff.mpr ⟨_, hcur⟩

/-- The slots are of the batch that their mini-batch is in. -/
theorem Driven.slots_move (h : Driven c store₀ s) (hmove : Move c s a s') :
    ∀ e ∈ s'.sys.slots, ∃ m, s'.sys.InBatch e.1 m ∧ roundsPerBatch * e.2.1 + 1 ≤ m ∧
      m ≤ roundsPerBatch * (e.2.1 + 1) := by
  have hold : ∀ e ∈ s.sys.slots, ∃ m, s'.sys.InBatch e.1 m ∧ roundsPerBatch * e.2.1 + 1 ≤ m ∧
      m ≤ roundsPerBatch * (e.2.1 + 1) := fun e he =>
    have ⟨m, hm, hrange⟩ := h.slots e he
    ⟨m, inBatch_of_move hmove hm, hrange⟩
  rcases slots_of_move hmove with heq | ⟨w, mb, q, hclaim⟩
  · rw [heq]
    exact hold
  · rw [hclaim.slots]
    intro e he
    rcases List.mem_append.mp he with he | he
    · exact hold e he
    · obtain rfl := List.mem_singleton.mp he
      obtain ⟨j, u, rfl, hmini, hround⟩ := h.inv.claims hclaim
      have hrange := h.inv.barriers.range_of_inMiniBatch hmini
      rw [hround] at hrange
      exact ⟨mb, inBatch_of_move hmove (inBatch_of_claims h.good.recorded hclaim), hrange⟩

theorem Driven.move (h : Driven c store₀ s) (hreg : Regular s a) (hmove : Move c s a s') :
    Driven c store₀ s' where
  inv := h.inv.move hreg.1 hmove
  good := by
    rcases sys_of_move hmove with ⟨-, heq⟩ | ⟨b, hb, hsys⟩
    · rw [heq]
      exact h.good
    · exact h.good.step (h.disciplined hreg.2 hmove hb) hsys
  started := h.started_move hreg.1 hmove
  slots := h.slots_move hmove

theorem driven_init (c : Config) (value : ℕ → DbKey → BitVec 32)
    (mem : ℕ → ℕ → HotTxnEntry Attempt) :
    Driven c (System.initStore c value) (State.init value mem : State n π) where
  inv := inv_init value mem
  good := ⟨⟨_, System.coupled_init c value mem⟩, System.recorded_init value mem,
    System.ordered_init c value mem, nofun⟩
  started := nofun
  slots := nofun

end Driven

/-- **The loop of `txn_executor` keeps the discipline.**  A run of the threads of both nodes with
their barriers, in which every hot period begins with a queue that is not empty and every operation
is a write, is for the executor a disciplined run. -/
theorem exists_disciplined_run (c : Config) (value : ℕ → DbKey → BitVec 32)
    (mem : ℕ → ℕ → HotTxnEntry Attempt) (as : List (Action n π)) (s : State n π)
    (hreg : AlongRun (step c) Regular (State.init value mem) as)
    (hrun : run (step c) (State.init value mem) as = some s) :
    ∃ bs, run (System.step c) (System.init value mem) bs = some s.sys ∧
      AlongRun (System.step c) System.Disciplined (System.init value mem) bs := by
  refine exists_run_of_refinement (I := Driven c (System.initStore c value)) State.sys ?_
    (driven_init c value mem) hreg hrun
  intro s a s' h hreg hstep
  have hmove := move_of_step hstep
  refine ⟨h.move hreg hmove, ?_⟩
  rcases sys_of_move hmove with ⟨-, heq⟩ | ⟨b, hb, hsys⟩
  · exact .inl heq
  · exact .inr ⟨b, hsys, h.disciplined hreg.2 hmove hb⟩

theorem exists_disciplined_run_twoWrites :
    ∃ s, AlongRun (step System.twoNodes) Regular bothStart twoWrites ∧
      run (step System.twoNodes) bothStart twoWrites = some s ∧
      s.sys.slots = [(⟨⟨0, 0⟩, 1⟩, 0, 0), (⟨⟨1, 0⟩, 1⟩, 0, 0)] ∧
      ∃ bs, run (System.step System.twoNodes) System.allFive bs = some s.sys ∧
        AlongRun (System.step System.twoNodes) System.Disciplined System.allFive bs := by
  have hrun : (run (step System.twoNodes) bothStart twoWrites).map (fun s => s.sys.slots) =
      some [(⟨⟨0, 0⟩, 1⟩, 0, 0), (⟨⟨1, 0⟩, 1⟩, 0, 0)] := by
    decide +kernel
  obtain ⟨s, hs, hslots⟩ := Option.map_eq_some_iff.mp hrun
  exact ⟨s, regular_twoWrites, hs, hslots,
    exists_disciplined_run System.twoNodes _ _ twoWrites s regular_twoWrites hs⟩

end Lockstep

end P4db
