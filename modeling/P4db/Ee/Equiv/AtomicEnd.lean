import P4db.Algorithm.LockAccount
import P4db.Ee.Equiv.Changes

/-!
# The end of a call

When a call of `my_execute` or `execute` has returned, every lock it took has been given back
exactly once, at the owner of its key.  A row it wrote had its value when the lock was given back, a
row of a call that returned `ROLLBACK` the value it had when the lock was taken.

The events of the history count what happens to the rows (`Change`), and the locking machine, which
follows the run, says how often and with which values (`Accounted`, `Steps.store_of_held`).
-/

namespace P4db

open TwoPhase Transition

namespace System

variable {c : Config} {s s' : System} {a a' : Ledger} {w : NodeT} {l : RowLock}
  {store₀ : DbKey → BitVec 32} {action : Action} {t : Attempt} {as : List Action}
  {value : ℕ → DbKey → BitVec 32} {mem : ℕ → ℕ → HotTxnEntry Attempt}

/-! ### What the history says about the calls -/

/-- The events of a call fit its transaction, and a call that has returned `ROLLBACK` has written
nothing. -/
structure Accurate (s : System) : Prop where
  called : ∀ e ∈ s.finished, ∃ txn mb, (e.1, txn, mb) ∈ s.started
  fits : ∀ e ∈ s.history, ∀ call ∈ s.started, call.1 = e.txn → Fits call.2.1 e
  rolledBack : ∀ t, (t, .rollback) ∈ s.finished → ¬Wrote s.history t

theorem Accurate.change (h : Accurate s) (hc : Coupled c store₀ s a) (hr : Recorded s)
    (hchange : Change c s s') : Accurate s' := by
  cases hchange with
  | @begins w txn mb hhist _ hstart hfin =>
    rw [← hc.history] at hhist
    refine ⟨fun e he => ?_, fun e he call hcall heq => ?_, fun t ht => ?_⟩
    · rw [hfin] at he
      obtain ⟨txn', mb', hmem⟩ := h.called e he
      exact ⟨txn', mb', hstart ▸ List.mem_cons_of_mem _ hmem⟩
    · rw [hhist] at he
      rcases List.mem_cons.mp (hstart ▸ hcall) with rfl | hcall
      · -- nothing has happened under the new number yet
        have heq : (⟨w, (s.threads w).seq + 1⟩ : Attempt) = e.txn := heq
        have hle := (hc.own w).thread.fresh e he (by rw [← heq])
        rw [← heq] at hle
        exact absurd hle (Nat.not_succ_le_self _)
      · exact h.fits e (hc.history ▸ he) call hcall heq
    · rw [hhist, hc.history]
      exact h.rolledBack t (hfin ▸ ht)
  | @returns w rc hhist _ hphase hstart hfin =>
    refine ⟨fun e he => ?_, fun e he call hcall => h.fits e (hhist ▸ he) call (hstart ▸ hcall),
      fun t ht => ?_⟩
    · rw [hstart]
      rcases List.mem_cons.mp (hfin ▸ he) with rfl | hold
      · exact ⟨_, _, hr.current w (by rw [hphase]; exact nofun)⟩
      · exact h.called e hold
    rw [hhist]
    rcases List.mem_cons.mp (hfin ▸ ht) with heq | hold
    · obtain ⟨rfl, rfl⟩ := Prod.mk.inj heq
      exact hc.history ▸ (hc.own w).thread.clean (by rw [hphase]; rfl)
    · exact h.rolledBack t hold
  | quiet hhist _ hcalls =>
    refine ⟨fun e he => hcalls.started ▸ h.called e (hcalls.finished ▸ he),
      fun e he call hcall => h.fits e (hhist ▸ he) call (hcalls.started ▸ hcall), fun t ht => ?_⟩
    rw [hhist]
    exact h.rolledBack t (hcalls.finished ▸ ht)
  | @event w e hhist hphase htxn hfits hcalls _ =>
    refine ⟨fun e he => hcalls.started ▸ h.called e (hcalls.finished ▸ he),
      fun e' he' call hcall heq => ?_, fun t ht => ?_⟩
    · rw [hcalls.started] at hcall
      rcases List.mem_append.mp (hhist ▸ he') with he' | he'
      · exact h.fits e' he' call hcall heq
      · obtain rfl := List.mem_singleton.mp he'
        obtain rfl := hr.unique hcall (hr.current w hphase) (heq.trans htxn)
        exact hfits
    · rw [hcalls.finished] at ht
      rintro ⟨l, v, hw, rfl⟩
      rcases List.mem_append.mp (hhist ▸ hw) with hw | hw
      · exact h.rolledBack _ ht ⟨l, v, hw, rfl⟩
      · -- a call that has returned is not the one its thread is in
        obtain rfl := List.mem_singleton.mp hw
        have hcall : l.txn = s.attempt w := htxn
        rw [hcall] at ht
        exact hphase ((hr.returned _ ht).2 rfl)

theorem accurate_init (value : ℕ → DbKey → BitVec 32) (mem : ℕ → ℕ → HotTxnEntry Attempt) :
    Accurate (init value mem) := ⟨nofun, nofun, nofun⟩

/-! ### The assertions of the handlers -/

/-- The undo log releases what is locked. -/
theorem Coupled.tablePut_success (h : Coupled c store₀ s a) {rc : RC} {j : ℕ} {act : UndoAction}
    (hphase : (s.threads w).phase = .clear rc j) (hact : (s.threads w).log[j]? = some act)
    (htarget : act.target = none) (id : TxnId) :
    act.future.tuple ≠ .null ∧ (s.tablePut c w.nid act.index act.mode id).1 = .success := by
  have hth := (h.own w).thread
  obtain ⟨op, hop, hok, -, -⟩ := (h.own w).clear_cases hphase hact
  have hlocal : op.locInfo.isLocal = true := hok.isLocal_of_target htarget
  have howner : c.owner op.id = w.nid := (hth.isLocal_iff hop).mp hlocal
  obtain ⟨-, htuple, hheld, -⟩ := hok.ofLocal hlocal
  have hl := hheld (by rw [hphase]; exact decide_eq_false (Nat.lt_irrefl j))
  have hsize : ¬c.size ≤ op.id := Nat.not_le.mpr (hth.placed op (List.mem_of_getElem? hop)).1
  have hinv := (h.rows.lockInv_cons hl).localUnlock id
  refine ⟨by rw [htuple]; exact nofun, ?_⟩
  rw [tablePut, hok.index, hok.mode, if_neg hsize, ← howner,
    ← @lockMode_rowLock w (s.threads w) j op (mode_ne_invalid_of_cold hop)]
  exact hinv.1

/-- The assertions about the futures hold, and the undo log throws nothing. -/
theorem Coupled.fault_ne (h : Coupled c store₀ s a) {f : Fault}
    (hexec : s.exec c action = some (.error f)) : f ≠ .openFutures ∧ f ≠ .undo := by
  cases failure_of_exec hexec with
  | @addFuture w _ hfut =>
    obtain ⟨x, hx⟩ := Option.isSome_iff_exists.mp hfut
    exact absurd (h.net.futs _ _ _ hx) (Nat.lt_irrefl _)
  | @getRes p hp htype hfut =>
    obtain ⟨op, act, hmsg⟩ := (h.own p.msg.att.worker).msg p hp rfl
    obtain ⟨-, -, -, hfut'⟩ := hmsg.waiting (by rw [htype]; rfl)
    rw [(hmsg.getRes htype).1] at hfut
    exact nomatch hfut.symm.trans hfut'
  | @undo w rc j act _ hphase hact htarget hfail =>
    obtain ⟨htuple, hput⟩ := h.tablePut_success hphase hact htarget act.future.lastAcq
    exact absurd hfail (not_or.mpr ⟨htuple, not_not.mpr hput⟩)
  | txnId | invalidOp | lockLocal | allocSlot | getReq => exact ⟨nofun, nofun⟩

/-- A `TuplePutRes` finds its thread waiting for it. -/
theorem Coupled.putResponses_pos (h : Coupled c store₀ s a) {p : Packet} (hp : p ∈ s.net)
    (htype : p.msg.type = .tuplePutRes) : 0 < s.putResponses ⟨p.dst, p.msg.sender.tid⟩ := by
  obtain ⟨op, act, hmsg⟩ := (h.own p.msg.att.worker).msg p hp rfl
  have hput : p.msg.type.isPut = true := by rw [htype]; rfl
  have hw : (⟨p.dst, p.msg.sender.tid⟩ : NodeT) = p.msg.att.worker := by
    rw [hmsg.putRes htype, (hmsg.releasing hput).2]
  rw [hw, h.net.puts, List.countP_pos_iff]
  exact ⟨p, hp, isPutOf_iff.mpr ⟨hput, rfl⟩⟩

/-! ### Runs -/

/-- The system, the locking machine that follows it, and what the history says. -/
structure Traced (c : Config) (store₀ : DbKey → BitVec 32) (s : System) (a : Ledger) : Prop where
  coupled : Coupled c store₀ s a
  recorded : Recorded s
  accounted : Accounted a
  accurate : Accurate s
  halted : ∀ n, s.halted n ≠ some .openFutures ∧ s.halted n ≠ some .undo

theorem traced_init (c : Config) (value : ℕ → DbKey → BitVec 32)
    (mem : ℕ → ℕ → HotTxnEntry Attempt) :
    Traced c (initStore c value) (init value mem) (State.init (initStore c value)) :=
  ⟨coupled_init c value mem, recorded_init value mem, accounted_init _, accurate_init value mem,
    fun _ => ⟨nofun, nofun⟩⟩

theorem Traced.halted_of_step (h : Traced c store₀ s a) (hstep : s.step c action = some s')
    (n : ℕ) : s'.halted n ≠ some .openFutures ∧ s'.halted n ≠ some .undo := by
  rcases step_cases hstep with hmove | ⟨f, hexec, rfl⟩
  · have hsame : s'.halted = s.halted := by cases hmove <;> rfl
    rw [hsame]
    exact h.halted n
  · show Function.update s.halted action.node (some f) n ≠ _ ∧
      Function.update s.halted action.node (some f) n ≠ _
    by_cases hn : n = action.node
    · subst hn
      rw [Function.update_self]
      obtain ⟨hopen, hundo⟩ := h.coupled.fault_ne hexec
      exact ⟨fun heq => hopen (Option.some.inj heq), fun heq => hundo (Option.some.inj heq)⟩
    · rw [Function.update_of_ne hn]
      exact h.halted n

theorem Traced.step (h : Traced c store₀ s a) (hstep : s.step c action = some s') :
    ∃ a', Relation.ReflGen Step a a' ∧ Traced c store₀ s' a' := by
  obtain ⟨a', hsteps, hc', hr'⟩ := h.coupled.step h.recorded hstep
  refine ⟨a', hsteps, hc', hr', ?_,
    h.accurate.change h.coupled h.recorded (h.coupled.change_of_step hstep), h.halted_of_step hstep⟩
  cases hsteps with
  | refl => exact h.accounted
  | single hs => exact h.accounted.step h.coupled.inv hs

theorem Traced.run (h : Traced c store₀ s a) (hrun : run (System.step c) s as = some s') :
    ∃ a', Steps a a' ∧ Traced c store₀ s' a' := by
  induction as generalizing s a with
  | nil => exact ⟨a, .refl, Option.some.inj hrun ▸ h⟩
  | cons action as ih =>
    obtain ⟨s₁, hstep, hrun'⟩ := run_cons_eq_some.mp hrun
    obtain ⟨a₁, hs₁, h₁⟩ := h.step hstep
    obtain ⟨a', hsteps, h'⟩ := ih h₁ hrun'
    exact ⟨a', hs₁.to_reflTransGen.trans hsteps, h'⟩

/-- When a lock is taken, the row has the value of the machine. -/
theorem Traced.grant (h : Traced c store₀ s a) (hstep : s.step c action = some s')
    (hg : Grants c s s' l) : Traced c store₀ s' (a.lock l) ∧
      (s.rows (c.owner l.item, l.item)).tuple = a.store l.item := by
  obtain ⟨a', hs, h'⟩ := h.step hstep
  have hhist : a'.history = a.history ++ [.lock l] := by
    rw [h'.coupled.history, hg.history, h.coupled.history]
  cases hs with
  | refl => simp at hhist
  | single hs =>
    obtain ⟨rfl, hcompat⟩ := hs.eq_lock hhist
    exact ⟨h', h.coupled.rows.tuple_eq fun l' hl' hitem => (hcompat l' hl' hitem.symm).2⟩

/-- When a lock has been given back, the row has the value of the machine. -/
theorem Traced.release (h : Traced c store₀ s a) (hstep : s.step c action = some s')
    (hr : Releases c s s' l) :
    l ∈ a.held ∧ (∃ order, Traced c store₀ s' (a.unlock l order)) ∧
      (s'.rows (c.owner l.item, l.item)).tuple = a.store l.item := by
  obtain ⟨a', hs, h'⟩ := h.step hstep
  have hhist : a'.history = a.history ++ [.unlock l] := by
    rw [h'.coupled.history, hr.history, h.coupled.history]
  cases hs with
  | refl => simp at hhist
  | single hs =>
    obtain ⟨hl, order, rfl⟩ := hs.eq_unlock hhist
    refine ⟨hl, ⟨order, h'⟩, h'.coupled.rows.tuple_eq fun l' hl' hitem => ?_⟩
    -- another lock on the row is compatible with the one that was there
    obtain ⟨hne, hl'⟩ := h.coupled.inv.nodup.mem_erase_iff.mp hl'
    exact (h.coupled.inv.compat l' hl' l hl hne hitem).1

/-- In a run from `s₀` to `s` the lock `l` is taken in state `s₁`, and later given back by the step
to state `s₂`. -/
def HeldFromTo (c : Config) (s₀ : System) (as : List Action) (s : System) (l : RowLock)
    (s₁ s₂ : System) : Prop :=
  ∃ as₁ α s₁' as₂ s₂' β as₃, as = as₁ ++ α :: (as₂ ++ β :: as₃) ∧
    Transition.run (System.step c) s₀ as₁ = some s₁ ∧ s₁.step c α = some s₁' ∧ Grants c s₁ s₁' l ∧
    Transition.run (System.step c) s₁' as₂ = some s₂' ∧ s₂'.step c β = some s₂ ∧
    Releases c s₂' s₂ l ∧ Transition.run (System.step c) s₂ as₃ = some s

/-- A lock in the history was granted by one step of the run. -/
theorem exists_grant (hrun : Transition.run (System.step c) (init value mem) as = some s)
    (hl : .lock l ∈ s.history) :
    ∃ as₁ α as₂ s₁ s₁' a₁, as = as₁ ++ α :: as₂ ∧
      Transition.run (System.step c) (init value mem) as₁ = some s₁ ∧
      Traced c (initStore c value) s₁ a₁ ∧ s₁.step c α = some s₁' ∧
      .lock l ∉ s₁.history ∧ Grants c s₁ s₁' l ∧
      Transition.run (System.step c) s₁' as₂ = some s := by
  obtain ⟨as₁, α, as₂, s₁, s₁', rfl, hrun₁, hα, hrun₂, hnot, hin⟩ :=
    exists_step_of_run (P := fun s : System => .lock l ∈ s.history) hrun nofun hl
  obtain ⟨a₁, -, h₁⟩ := (traced_init c value mem).run hrun₁
  exact ⟨as₁, α, as₂, s₁, s₁', a₁, rfl, hrun₁, h₁, hα, hnot,
    (h₁.coupled.change_of_step hα).grants hnot hin, hrun₂⟩

/-- A lock whose release is in the history was held from one step of the run to another. -/
theorem exists_heldFromTo (hrun : Transition.run (System.step c) (init value mem) as = some s)
    (hu : .unlock l ∈ s.history) : ∃ s₁ s₂, HeldFromTo c (init value mem) as s l s₁ s₂ := by
  obtain ⟨a, -, h⟩ := (traced_init c value mem).run hrun
  have hl : .lock l ∈ s.history := by
    rw [← h.coupled.history] at hu ⊢
    exact h.accounted.locked l hu
  obtain ⟨as₁, α, as', s₁, s₁', a₁, rfl, hrun₁, h₁, hα, hnot, hg, hrun'⟩ := exists_grant hrun hl
  obtain ⟨h₁', -⟩ := h₁.grant hα hg
  have hnot' : .unlock l ∉ s₁'.history := by
    rw [hg.history, List.mem_append]
    rintro (hu' | hu')
    · rw [← h₁.coupled.history] at hu' hnot
      exact hnot (h₁.accounted.locked l hu')
    · exact nomatch List.mem_singleton.mp hu'
  obtain ⟨as₂, β, as₃, s₂', s₂, rfl, hrun₂, hβ, hrun₃, hnot₂, hin₂⟩ :=
    exists_step_of_run (P := fun s : System => .unlock l ∈ s.history) hrun' hnot' hu
  obtain ⟨a₂, -, h₂⟩ := h₁'.run hrun₂
  exact ⟨s₁, s₂, as₁, α, s₁', as₂, s₂', β, as₃, rfl, hrun₁, hα, hg, hrun₂, hβ,
    (h₂.coupled.change_of_step hβ).releases hnot₂ hin₂, hrun₃⟩

/-- The value of a row when a lock on it is given back: the one written under the lock, or the one
that was there when it was taken if its call has written nothing. -/
theorem HeldFromTo.tuple_eq {s₁ s₂ : System} (h : HeldFromTo c (init value mem) as s l s₁ s₂) :
    (∀ v, .write l v ∈ s.history → (∀ v', .write l v' ∈ s.history → v' = v) →
      (s₂.rows (c.owner l.item, l.item)).tuple = v) ∧
    (¬Wrote s.history l.txn →
      (s₂.rows (c.owner l.item, l.item)).tuple = (s₁.rows (c.owner l.item, l.item)).tuple) := by
  obtain ⟨as₁, α, s₁', as₂, s₂', β, as₃, -, hrun₁, hα, hg, hrun₂, hβ, hr, hrun₃⟩ := h
  obtain ⟨a₁, -, h₁⟩ := (traced_init c value mem).run hrun₁
  obtain ⟨h₁', htuple₁⟩ := h₁.grant hα hg
  obtain ⟨a₂, hsteps, h₂⟩ := h₁'.run hrun₂
  obtain ⟨hl, ⟨order, h₂'⟩, htuple₂⟩ := h₂.release hβ hr
  obtain ⟨a, hsteps', h⟩ := h₂'.run hrun₃
  have hmem : ∀ e ∈ a₂.history, e ∈ s.history := fun e he =>
    h.coupled.history ▸ hsteps'.mem_history (List.mem_append_left _ he)
  rw [htuple₂]
  refine ⟨fun v hv hall => ?_, fun hclean => ?_⟩
  · -- the write was made before the release
    rw [← h.coupled.history] at hv
    have hrel : Released (a₂.unlock l order).history l.txn :=
      ⟨l, List.mem_append_right _ List.mem_cons_self, rfl⟩
    have hv' : .write l v ∈ a₂.history ++ [Event.unlock l] :=
      hsteps'.frozen_of_released (e := .write l v) hrel hv nofun
    have hv₂ : .write l v ∈ a₂.history := by simpa using hv'
    exact h₂.accounted.store l hl v hv₂ fun v' hv' => hall v' (hmem _ hv')
  · rw [htuple₁]
    have hstore := hsteps.store_of_held h₁'.coupled.inv h₁'.accounted List.mem_cons_self hl
      fun ⟨l', v, hw, ht⟩ => hclean ⟨l', v, hmem _ hw, ht⟩
    exact hstore

/-! ### The end of a call -/

/-- A call that has returned holds no lock. -/
theorem Traced.count_eq (h : Traced c store₀ s a) {rc : RC} (hfin : (t, rc) ∈ s.finished)
    (hl : l.txn = t) : s.history.count (.unlock l) = s.history.count (.lock l) := by
  have hnot : l ∉ a.held := by
    intro hheld
    obtain ⟨op, -, hlop⟩ := ((h.coupled.own l.txn.worker).held l hheld rfl).op_eq
    have hseq : t.seq = (s.threads t.worker).seq := by
      rw [← hl]
      exact congrArg (fun l : RowLock => l.txn.seq) hlop
    have hidle := (h.recorded.returned _ hfin).2 hseq
    exact (h.coupled.own t.worker).not_held_of_idle hidle hheld (by rw [hl])
  rw [← h.coupled.history]
  by_cases hlock : .lock l ∈ a.history
  · have hunlock : .unlock l ∈ a.history := by
      by_contra hu
      exact hnot ((h.accounted.held_iff l).mpr ⟨hlock, hu⟩)
    have h₁ := List.count_pos_iff.mpr hlock
    have h₂ := List.count_pos_iff.mpr hunlock
    have h₃ := h.accounted.lock_le l
    have h₄ := h.accounted.unlock_le l
    omega
  · have hunlock : .unlock l ∉ a.history := fun hu => hlock (h.accounted.locked l hu)
    rw [List.count_eq_zero_of_not_mem hlock, List.count_eq_zero_of_not_mem hunlock]

/-- The lock of operation `i` of a call. -/
def opLock (t : Attempt) (i : ℕ) (op : Op) : RowLock := ⟨t, i, op.id, decide (op.mode = .write)⟩

theorem opLock_excl {i : ℕ} {op : Op} (hop : op.mode = .write) :
    opLock t i op = ⟨t, i, op.id, true⟩ := by
  rw [opLock, decide_eq_true hop]

/-- A call that has returned `COMMIT` has taken the locks of all its operations. -/
theorem Traced.lock_of_commit (h : Traced c store₀ s a) {txn : Txn} {mb : Option ℕ}
    (hfin : (t, .commit) ∈ s.finished) (hstart : (t, txn, mb) ∈ s.started) {i : ℕ} {op : Op}
    (hop : txn.cold[i]? = some op) : .lock (opLock t i op) ∈ s.history := by
  obtain ⟨hwrite, hread⟩ := (h.recorded.finished t hfin txn mb hstart).2.2 i op hop
  rw [← h.coupled.history] at hwrite hread ⊢
  cases hmode : op.mode with
  | invalid => exact absurd hmode (mode_ne_invalid_of_cold hop)
  | write => exact h.accounted.accessed _ (hwrite hmode) _ (by rw [opLock_excl hmode]; rfl)
  | read =>
    obtain ⟨v, hv⟩ := hread hmode
    refine h.accounted.accessed _ hv _ ?_
    rw [opLock, hmode]
    rfl

/-- What a call that has returned leaves in a row. -/
theorem HeldFromTo.tuple_of_finished {s₁ s₂ : System} {i : ℕ} {op : Op}
    (hheld : HeldFromTo c (init value mem) as s (opLock t i op) s₁ s₂) (h : Traced c store₀ s a)
    {txn : Txn} {mb : Option ℕ} (hstart : (t, txn, mb) ∈ s.started) (hop : txn.cold[i]? = some op) :
    ((t, .commit) ∈ s.finished → op.mode = .write →
      (s₂.rows (c.owner op.id, op.id)).tuple = op.value) ∧
    ((t, .rollback) ∈ s.finished →
      (s₂.rows (c.owner op.id, op.id)).tuple = (s₁.rows (c.owner op.id, op.id)).tuple) := by
  obtain ⟨hwritten, hclean⟩ := hheld.tuple_eq
  refine ⟨fun hfin hmode => hwritten op.value ?_ fun v hv => ?_, fun hfin => ?_⟩
  · rw [opLock_excl hmode]
    exact ((h.recorded.finished t hfin txn mb hstart).2.2 i op hop).1 hmode
  · obtain ⟨op', hop', hv'⟩ := h.accurate.fits _ hv _ hstart rfl
    obtain rfl := Option.some.inj (hop.symm.trans hop')
    exact hv'
  · exact hclean (h.accurate.rolledBack t hfin)

/-- **The end of a call is atomic.**  In every run:
* a step takes one lock, at the owner of its key, or gives one back there, or does neither;
* a call that has returned has taken locks of its operations only, each at most once, and has given
  back exactly those; if it returned `COMMIT`, it has taken all of them;
* a lock it took was taken by one step and given back by a later one; if the call returned `COMMIT`
  the row then had the value of the write, and if it returned `ROLLBACK` the value from before the
  lock;
* no assertion about the futures and no check of the undo log has failed, and a `TuplePutRes` finds
  the counter of its thread above zero. -/
theorem atomic_end (c : Config) (value : ℕ → DbKey → BitVec 32) (mem : ℕ → ℕ → HotTxnEntry Attempt)
    (as : List Action) (s : System) (hrun : run (System.step c) (init value mem) as = some s) :
    (∀ action s', s.step c action = some s' →
      (∃ l, Grants c s s' l) ∨ (∃ l, Releases c s s' l) ∨ KeepsLocks c s s') ∧
    (∀ t rc, (t, rc) ∈ s.finished →
      (∀ l, l.txn = t → s.history.count (.lock l) ≤ 1 ∧
        s.history.count (.unlock l) = s.history.count (.lock l)) ∧
      ∃ txn mb, (t, txn, mb) ∈ s.started ∧
        (∀ l, l.txn = t → .lock l ∈ s.history →
          ∃ i op, txn.cold[i]? = some op ∧ l = opLock t i op) ∧
        ∀ i op, txn.cold[i]? = some op →
          (rc = .commit → .lock (opLock t i op) ∈ s.history) ∧
          (.lock (opLock t i op) ∈ s.history →
            ∃ s₁ s₂, HeldFromTo c (init value mem) as s (opLock t i op) s₁ s₂ ∧
              (rc = .commit → op.mode = .write →
                (s₂.rows (c.owner op.id, op.id)).tuple = op.value) ∧
              (rc = .rollback → (s₂.rows (c.owner op.id, op.id)).tuple =
                (s₁.rows (c.owner op.id, op.id)).tuple))) ∧
    (∀ n, s.halted n ≠ some .openFutures ∧ s.halted n ≠ some .undo) ∧
    (∀ p ∈ s.net, p.msg.type = .tuplePutRes → 0 < s.putResponses ⟨p.dst, p.msg.sender.tid⟩) := by
  obtain ⟨a, -, h⟩ := (traced_init c value mem).run hrun
  refine ⟨fun action s' hstep => (h.coupled.change_of_step hstep).locks, fun t rc hfin => ?_,
    h.halted, fun p hp htype => h.coupled.putResponses_pos hp htype⟩
  obtain ⟨txn, mb, hstart⟩ := h.accurate.called _ hfin
  refine ⟨fun l hl => ⟨?_, h.count_eq hfin hl⟩, txn, mb, hstart, fun l hl hlock => ?_,
    fun i op hop => ⟨?_, fun hlock => ?_⟩⟩
  · rw [← h.coupled.history]
    exact h.accounted.lock_le l
  · obtain ⟨op, hop, hlop⟩ := h.accurate.fits _ hlock _ hstart hl.symm
    exact ⟨l.op, op, hop, hl ▸ hlop⟩
  · rintro rfl
    exact h.lock_of_commit hfin hstart hop
  · have hunlock : .unlock (opLock t i op) ∈ s.history := by
      rw [← List.count_pos_iff, h.count_eq hfin rfl]
      exact List.count_pos_iff.mpr hlock
    obtain ⟨s₁, s₂, hheld⟩ := exists_heldFromTo hrun hunlock
    obtain ⟨hcommit, hrollback⟩ := hheld.tuple_of_finished h hstart hop
    exact ⟨s₁, s₂, hheld, fun hrc => hcommit (hrc ▸ hfin), fun hrc => hrollback (hrc ▸ hfin)⟩

theorem atomic_end_writeThenRead :
    ∃ s, run (System.step twoNodes) allFive writeThenRead = some s ∧
      (⟨⟨0, 0⟩, 1⟩, .commit) ∈ s.finished ∧
      s.history.count (.lock ⟨⟨⟨0, 0⟩, 1⟩, 0, 3, true⟩) = 1 ∧
      s.history.count (.unlock ⟨⟨⟨0, 0⟩, 1⟩, 0, 3, true⟩) = 1 := by
  have hrun : (run (System.step twoNodes) allFive writeThenRead).map (fun s =>
      (s.finished, s.history.count (.lock ⟨⟨⟨0, 0⟩, 1⟩, 0, 3, true⟩))) =
      some ([(⟨⟨1, 0⟩, 1⟩, .commit), (⟨⟨0, 0⟩, 1⟩, .commit)], 1) := by
    decide +kernel
  obtain ⟨s, hs, heq⟩ := Option.map_eq_some_iff.mp hrun
  obtain ⟨hfin, hlock⟩ := Prod.mk.inj heq
  have hmem : ((⟨⟨0, 0⟩, 1⟩, .commit) : Attempt × RC) ∈ s.finished := by
    rw [hfin]
    decide
  have hunlock := ((atomic_end twoNodes _ _ writeThenRead s hs).2.1 _ _ hmem).1
    ⟨⟨⟨0, 0⟩, 1⟩, 0, 3, true⟩ rfl
  exact ⟨s, hs, hmem, hlock, hunlock.2.trans hlock⟩

end System

end P4db
