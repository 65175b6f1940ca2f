import P4db.Ee.Equiv.AtomicEnd
import P4db.Ee.Equiv.Travel

/-!
# Releases that leave no trace

A call that rolls back, and every call of `execute`, gives a row back with the stamp it found when
it took the lock.  Nobody else can have changed the stamp of a row under a write lock, so the
release leaves it as it is (`release_leaves_no_trace`); under a read lock this holds as long as the
stamp is still the one from then.

The value of the row is left alone as well, except by a call of `execute` that commits a write to a
row of another node: there the release is what brings the value.
-/

namespace P4db

open TwoPhase Transition

namespace System

variable {c : Config} {s s' : System} {a a' : Ledger} {l : RowLock} {store₀ : DbKey → BitVec 32}
  {action : Action} {as : List Action}

/-! ### While a lock is held -/

/-- The stamp that travels with `l` is the one that was seen, up to the replacement by
`my_execute`. -/
def Seen (s : System) (l : RowLock) (seen : TxnId) : Prop :=
  ∀ v, Carries s l.txn.worker l.op v → v = due (s.threads l.txn.worker) l.op seen

theorem Traced.held_of_not_unlock (h : Traced c store₀ s a) (hlock : .lock l ∈ s.history)
    (hnot : .unlock l ∉ s.history) : l ∈ a.held := by
  rw [← h.coupled.history] at hlock hnot
  exact (h.accounted.held_iff l).mpr ⟨hlock, hnot⟩

/-- The operation of a lock that is held. -/
theorem Traced.op_of_held (h : Traced c store₀ s a) (hl : l ∈ a.held) :
    ∃ op, (s.threads l.txn.worker).txn.cold[l.op]? = some op ∧
      l = rowLock l.txn.worker (s.threads l.txn.worker) l.op op :=
  ((h.coupled.own l.txn.worker).held l hl rfl).op_eq

theorem history_subset_of_step (h : Traced c store₀ s a) (hstep : s.step c action = some s') :
    ∀ e ∈ s.history, e ∈ s'.history := by
  obtain ⟨a', hs, h'⟩ := h.step hstep
  rw [← h.coupled.history, ← h'.coupled.history]
  cases hs with
  | refl => exact fun e => id
  | single hs => exact fun e => hs.mem_history

theorem history_subset_of_run (h : Traced c store₀ s a)
    (hrun : run (System.step c) s as = some s') : ∀ e ∈ s.history, e ∈ s'.history := by
  obtain ⟨a', hs, h'⟩ := h.run hrun
  rw [← h.coupled.history, ← h'.coupled.history]
  exact fun e => Steps.mem_history hs

/-- A step that takes the lock starts its stamp on its way. -/
theorem Traced.seen_of_grant (h : Traced c store₀ s a) (hstep : s.step c action = some s')
    (hg : Grants c s s' l) : Seen s' l (s.lastAcq c l.item) := by
  intro v hv
  obtain ⟨h', -⟩ := h.grant hstep hg
  obtain ⟨op, hop, hl⟩ := h'.op_of_held List.mem_cons_self
  have hfresh : l ∉ a.held := (List.nodup_cons.mp h'.coupled.inv.nodup).1
  rcases step_cases hstep with hmove | ⟨f, -, rfl⟩
  · cases origin_of_move h.coupled hmove _ _ v hv ⟨op, hop⟩ with
    | carried hcar hseq htxn =>
      -- nothing was carried before, because the lock was not held
      have hheld := h.coupled.held_of_carries hcar (htxn ▸ hop)
      rw [rowLock, ← hseq] at hheld
      exact absurd (hl ▸ hheld) hfresh
    | taken hop' _ _ _ hv' _ _ htxn _ hdue =>
      obtain rfl := Option.some.inj (hop'.symm.trans (htxn ▸ hop))
      rw [hdue, hv', congrArg Lock.item hl]
      rfl
  · exact absurd (List.self_eq_append_right.mp hg.history) (List.cons_ne_nil _ _)

/-- A step after which the lock is still held keeps the stamp. -/
theorem Traced.seen_of_step (h : Traced c store₀ s a) (hstep : s.step c action = some s')
    {seen : TxnId} (hseen : Seen s l seen) (hl : l ∈ a.held) (hnot : .unlock l ∉ s'.history) :
    Seen s' l seen := by
  intro v hv
  rcases step_cases hstep with hmove | ⟨f, -, rfl⟩
  · obtain ⟨a', -, h'⟩ := h.step hstep
    have hlock := ((h.accounted.held_iff l).mp hl).1
    rw [h.coupled.history] at hlock
    have hl' := h'.held_of_not_unlock (history_subset_of_step h hstep _ hlock) hnot
    obtain ⟨op, hop, -⟩ := h'.op_of_held hl'
    cases origin_of_move h.coupled hmove _ _ v hv ⟨op, hop⟩ with
    | carried hcar _ _ _ hdue => exact hdue _ (hseen _ hcar)
    | taken hop' hhist =>
      -- the lock would have been taken twice
      obtain ⟨op', hop'', hlop⟩ := h.op_of_held hl
      obtain rfl := Option.some.inj (hop'.symm.trans hop'')
      rw [← hlop] at hhist
      have hcount := h'.accounted.lock_le l
      rw [h'.coupled.history, hhist, List.count_append, List.count_singleton_self] at hcount
      have := List.count_pos_iff.mpr hlock
      omega
  · exact hseen v (Carries.congr (by rfl) (by exact fun p _ hp => hp) hv)

/-- A write lock keeps the stamp of its row, and the value if a thread of another node has it. -/
theorem Traced.row_of_step (h : Traced c store₀ s a) (hstep : s.step c action = some s')
    (hl : l ∈ a.held) (hex : l.excl = true) (hnot : .unlock l ∉ s'.history) :
    s'.lastAcq c l.item = s.lastAcq c l.item ∧ (l.txn.worker.nid ≠ c.owner l.item →
      (s'.rows (c.owner l.item, l.item)).tuple = (s.rows (c.owner l.item, l.item)).tuple) := by
  -- every other lock on the row would have to be shared
  have hother : ∀ l' ∈ a.held, l' ≠ l → l'.item ≠ l.item := fun l' hl' hne hitem =>
    Bool.noConfusion (hex.symm.trans (h.coupled.inv.compat l' hl' l hl hne hitem).2)
  rcases (h.coupled.change_of_step hstep).locks with ⟨l', hg⟩ | ⟨l', hr⟩ | hk
  · obtain ⟨h', -⟩ := h.grant hstep hg
    have hne : l' ≠ l := fun heq => (List.nodup_cons.mp h'.coupled.inv.nodup).1 (heq ▸ hl)
    have hitem : l'.item ≠ l.item := fun hitem => Bool.noConfusion
      (hex.symm.trans (h'.coupled.inv.compat l' List.mem_cons_self l (List.mem_cons_of_mem _ hl)
        hne hitem).2)
    have hrow := hg.others (c.owner l.item, l.item) fun heq => hitem (Prod.mk.inj heq).2.symm
    rw [lastAcq, hrow]
    exact ⟨rfl, fun _ => rfl⟩
  · obtain ⟨hl', -⟩ := h.release hstep hr
    have hne : l' ≠ l := by
      rintro rfl
      exact hnot (hr.history ▸ List.mem_append_right _ List.mem_cons_self)
    have hrow := hr.others (c.owner l.item, l.item) fun heq =>
      hother l' hl' hne (Prod.mk.inj heq).2.symm
    rw [lastAcq, hrow]
    exact ⟨rfl, fun _ => rfl⟩
  · refine ⟨by rw [lastAcq, hk.rows]; rfl, fun hremote => ?_⟩
    rcases hk.tuple (c.owner l.item, l.item) with hsame | ⟨l', v, hhist, hnk, hlocal⟩
    · rw [hsame]
    · -- the writer holds the row, and it is a thread of the owner
      obtain ⟨a', hs, h'⟩ := h.step hstep
      rw [← h'.coupled.history, ← h.coupled.history] at hhist
      have hitem := (Prod.mk.inj hnk).2
      cases hs with
      | refl => exact absurd (List.self_eq_append_right.mp hhist) (List.cons_ne_nil _ _)
      | single hs =>
        have hheld := hs.held_of_write hhist
        by_cases hne : l' = l
        · rw [hne] at hlocal
          exact absurd hlocal hremote
        · exact absurd hitem.symm (hother l' hheld hne)

/-- What stays while a lock is held: the stamp that travels with it, and under a write lock the
row. -/
theorem Traced.seen_of_run (h : Traced c store₀ s a)
    (hrun : Transition.run (System.step c) s as = some s')
    {seen : TxnId} (hseen : Seen s l seen) (hl : l ∈ a.held) (hnot : .unlock l ∉ s'.history) :
    Seen s' l seen ∧ (l.excl = true → s'.lastAcq c l.item = s.lastAcq c l.item ∧
      (l.txn.worker.nid ≠ c.owner l.item →
        (s'.rows (c.owner l.item, l.item)).tuple = (s.rows (c.owner l.item, l.item)).tuple)) := by
  induction as generalizing s a with
  | nil =>
    obtain rfl := Option.some.inj hrun
    exact ⟨hseen, fun _ => ⟨rfl, fun _ => rfl⟩⟩
  | cons action as ih =>
    obtain ⟨s₁, hstep, hrun'⟩ := run_cons_eq_some.mp hrun
    obtain ⟨a₁, -, h₁⟩ := h.step hstep
    have hlock : .lock l ∈ s.history := h.coupled.history ▸ ((h.accounted.held_iff l).mp hl).1
    have hnot₁ : .unlock l ∉ s₁.history := fun hu => hnot (history_subset_of_run h₁ hrun' _ hu)
    have hl₁ := h₁.held_of_not_unlock (history_subset_of_step h hstep _ hlock) hnot₁
    obtain ⟨hseen', hrow'⟩ := ih h₁ hrun' (h.seen_of_step hstep hseen hl hnot₁) hl₁
    refine ⟨hseen', fun hex => ?_⟩
    obtain ⟨hacq, htuple⟩ := h.row_of_step hstep hl hex hnot₁
    exact ⟨(hrow' hex).1.trans hacq, fun hremote => ((hrow' hex).2 hremote).trans (htuple hremote)⟩

/-! ### The release -/

/-- The lock `l` was taken in state `s₁` of the run, and is held since. -/
def HeldSince (c : Config) (s₀ : System) (as : List Action) (s : System) (l : RowLock)
    (s₁ : System) : Prop :=
  ∃ as₁ α s₁' as₂, as = as₁ ++ α :: as₂ ∧ run (System.step c) s₀ as₁ = some s₁ ∧
    s₁.step c α = some s₁' ∧ Grants c s₁ s₁' l ∧ run (System.step c) s₁' as₂ = some s ∧
    .unlock l ∉ s.history

theorem exists_heldSince {value : ℕ → DbKey → BitVec 32} {mem : ℕ → ℕ → HotTxnEntry Attempt}
    (hrun : run (System.step c) (init value mem) as = some s) (hlock : .lock l ∈ s.history)
    (hnot : .unlock l ∉ s.history) : ∃ s₁, HeldSince c (init value mem) as s l s₁ := by
  obtain ⟨as₁, α, as₂, s₁, s₁', -, rfl, hrun₁, -, hα, -, hg, hrun₂⟩ := exists_grant hrun hlock
  exact ⟨s₁, as₁, α, s₁', as₂, rfl, hrun₁, hα, hg, hrun₂, hnot⟩

/-- A call that rolls back, and a call of `execute`, carries what it has seen. -/
theorem due_eq_seen {th : Thread} (h : th.phase.rolledBack = true ∨ th.miniBatchNum = none) (i : ℕ)
    (seen : TxnId) : due th i seen = seen := by
  unfold due
  rcases h with hback | hmb
  · have hacc : th.phase.accessed th.txn.cold.length = 0 := by
      match hph : th.phase with
      | .clear .rollback _ | .waitPuts .rollback => rfl
      | .idle | .acquire _ | .await _ | .access _ | .alloc | .clear .commit _ | .waitPuts .commit =>
        rw [hph] at hback
        cases hback
    rw [hacc]
    simp
  · rw [hmb]
    simp

/-- A call that releases its locks and does not roll back has written its operations. -/
theorem Traced.store_of_committed (h : Traced c store₀ s a) (hl : l ∈ a.held) (hex : l.excl = true)
    (hcom : (s.threads l.txn.worker).phase.committed = true) :
    ∃ op, (s.threads l.txn.worker).txn.cold[l.op]? = some op ∧ a.store l.item = op.value := by
  obtain ⟨op, hop, hlop⟩ := h.op_of_held hl
  have hlt := (List.getElem?_eq_some_iff.mp hop).1
  have hne : (s.threads l.txn.worker).phase ≠ .idle := by
    intro hidle
    rw [hidle] at hcom
    cases hcom
  have hacc : (s.threads l.txn.worker).phase.accessed (s.threads l.txn.worker).txn.cold.length =
      (s.threads l.txn.worker).txn.cold.length := by
    match hph : (s.threads l.txn.worker).phase with
    | .clear .commit _ | .waitPuts .commit => rfl
    | .idle | .acquire _ | .await _ | .access _ | .alloc | .clear .rollback _
    | .waitPuts .rollback =>
      rw [hph] at hcom
      cases hcom
  have hmode : op.mode = .write := of_decide_eq_true ((congrArg Lock.excl hlop).symm.trans hex)
  have hperf := (h.recorded.performed _ l.op op hop (by rw [hacc]; exact hlt)).1 hmode
  have hlock : l = ⟨⟨l.txn.worker, (s.threads l.txn.worker).seq⟩, l.op, op.id, true⟩ := by
    rw [rowLock, decide_eq_true hmode] at hlop
    exact hlop
  rw [← hlock] at hperf
  refine ⟨op, hop, h.accounted.store l hl op.value (h.coupled.history ▸ hperf) fun v hv => ?_⟩
  -- every write under the lock has the value of the operation
  rw [h.coupled.history] at hv
  obtain ⟨op', hop', hv'⟩ := h.accurate.fits _ hv _ (h.recorded.current _ hne)
    (congrArg Lock.txn hlock).symm
  obtain rfl := Option.some.inj (hop.symm.trans hop')
  exact hv'

/-- **Releases that leave no trace.**  When a call that rolls back, or a call of `execute`, gives
back a lock, in any state of any run:
* the row keeps its value, unless the call is one of `execute` that commits and the lock is the
  write lock of a row of another node; then the row gets the value of the operation;
* the row keeps its stamp, if the lock is a write lock, or if the stamp is the one from when the
  lock was taken. -/
theorem release_leaves_no_trace (c : Config) (value : ℕ → DbKey → BitVec 32)
    (mem : ℕ → ℕ → HotTxnEntry Attempt) (as : List Action) (s s' : System) (action : Action)
    (l : RowLock) (hrun : run (System.step c) (init value mem) as = some s)
    (hstep : s.step c action = some s') (hrel : Releases c s s' l)
    (hcall : (s.threads l.txn.worker).phase.rolledBack = true ∨
      (s.threads l.txn.worker).miniBatchNum = none) :
    ((s'.rows (c.owner l.item, l.item)).tuple = (s.rows (c.owner l.item, l.item)).tuple ∨
      (s.threads l.txn.worker).phase.committed = true ∧ l.excl = true ∧
        l.txn.worker.nid ≠ c.owner l.item ∧
        ∃ op, (s.threads l.txn.worker).txn.cold[l.op]? = some op ∧
          (s'.rows (c.owner l.item, l.item)).tuple = op.value) ∧
    ∃ s₁, HeldSince c (init value mem) as s l s₁ ∧
      (l.excl = true ∨ s.lastAcq c l.item = s₁.lastAcq c l.item →
        s'.lastAcq c l.item = s.lastAcq c l.item) := by
  obtain ⟨s₁, hheld⟩ : ∃ s₁, HeldSince c (init value mem) as s l s₁ := by
    obtain ⟨a, -, h⟩ := (traced_init c value mem).run hrun
    obtain ⟨hlock, hnot⟩ := (h.accounted.held_iff l).mp (h.release hstep hrel).1
    rw [h.coupled.history] at hlock hnot
    exact exists_heldSince hrun hlock hnot
  -- what was seen when the lock was taken
  obtain ⟨as₁, α, s₁', as₂, -, hrun₁, hα, hg, hrun₂, hnot⟩ := id hheld
  obtain ⟨a₁, -, h₁⟩ := (traced_init c value mem).run hrun₁
  obtain ⟨h₁', htuple₁⟩ := h₁.grant hα hg
  obtain ⟨a, hsteps, h⟩ := h₁'.run hrun₂
  obtain ⟨hl, -, htuple⟩ := h.release hstep hrel
  obtain ⟨hseen, hrow⟩ := h₁'.seen_of_run hrun₂ (h₁.seen_of_grant hα hg) List.mem_cons_self hnot
  have hmove : Move c s action s' := by
    rcases step_cases hstep with hmove | ⟨f, -, rfl⟩
    · exact hmove
    · exact nomatch List.self_eq_append_right.mp hrel.history
  obtain ⟨op, hop, -, hcar, hphase⟩ := lastAcq_of_releases h.coupled hmove hrel
  have hstamp := hseen _ hcar
  rw [due_eq_seen hcall] at hstamp
  refine ⟨?_, s₁, hheld, ?_⟩
  · by_cases hcase : l.excl = false ∨ l.txn.worker.nid = c.owner l.item
    · exact Or.inl (hrel.tuple hcase)
    obtain ⟨hex, hremote⟩ := not_or.mp hcase
    rw [Bool.not_eq_false] at hex
    rcases hphase with hback | hcom
    · -- nothing was written, and nobody else could write
      have hclean : ¬Wrote a.history l.txn := by
        obtain ⟨op', -, hlop⟩ := h.op_of_held hl
        rw [congrArg Lock.txn hlop]
        exact (h.coupled.own l.txn.worker).thread.clean (Phase.clean_of_rolledBack hback)
      have hstore := hsteps.store_of_held h₁'.coupled.inv h₁'.accounted List.mem_cons_self hl hclean
      left
      rw [htuple, hstore, (hrow hex).2 hremote, hg.row]
      exact htuple₁.symm
    · obtain ⟨op', hop', hv⟩ := h.store_of_committed hl hex hcom
      exact Or.inr ⟨hcom, hex, hremote, op', hop', htuple.trans hv⟩
  · rintro (hex | heq)
    · rw [hstamp, (hrow hex).1, lastAcq, lastAcq, hg.row]
    · rw [hstamp, heq]

/-! ### Two runs -/

/-- Two nodes with eight keys each. -/
def eightEach : Config := ⟨2, 16, 16⟩

/-- A transaction of node 0 with the given operations. -/
def txnOf (ops : List (DbKey × AccessMode × BitVec 32)) : Txn :=
  { (default : Txn) with
    coldOps := fun i =>
      match ops[i]? with
      | some (k, mode, value) => ⟨k, (eightEach.part 0).location k, mode, value⟩
      | none => ⟨0, default, .invalid, 0⟩ }

/-- A message about the write of key 8 by thread 0 of node 0. -/
def aboutKey8 (type : MsgType) (pack tuple : BitVec 32) : TupleMsg :=
  ⟨type, ⟨0, 0⟩, 0, 8, .write, pack, tuple, ⟨⟨0, 0⟩, 1⟩, 7⟩

/-- A leftover transaction reads the keys 0 to 6 of its node and writes 7 to key 8 of node 1; its
`TuplePutReq` is on the way. -/
def leftoverWrite : List Action :=
  let w : NodeT := ⟨0, 0⟩
  let old := (TxnId.ofFields true 0 0).getPacked
  .start w (txnOf ((List.range 7).map (fun k => (k, .read, 0)) ++ [(8, .write, 7)])) none ::
  List.replicate 8 (.thread w false) ++
  [.deliver ⟨1, aboutKey8 .tupleGetReq ({ (default : Txn).id with valid := false }).getPacked 0⟩,
    .deliver ⟨0, aboutKey8 .tupleGetRes old 5⟩] ++
  List.replicate 19 (.thread w false)

/-- Threads 0 and 1 of node 0 read key 0, and thread 2 holds the write lock on key 1.  Thread 1
commits, and thread 0, which needs key 1 as well, is about to roll back. -/
def sharedReaders : List Action :=
  [.start ⟨0, 2⟩ (txnOf [(1, .write, 7)]) (some 1), .thread ⟨0, 2⟩ false,
    .start ⟨0, 0⟩ (txnOf [(0, .read, 0), (1, .write, 7)]) (some 1), .thread ⟨0, 0⟩ false,
    .start ⟨0, 1⟩ (txnOf [(0, .read, 0)]) (some 1)] ++
  List.replicate 6 (.thread ⟨0, 1⟩ false) ++ [.thread ⟨0, 0⟩ true]

/-- The write lock of the leftover transaction on key 8. -/
def key8Lock : RowLock := ⟨⟨⟨0, 0⟩, 1⟩, 7, 8, true⟩

/-- The step that gives it back. -/
def putKey8 : Action :=
  .deliver ⟨1, aboutKey8 .tuplePutReq (TxnId.ofFields true 0 0).getPacked 7⟩

theorem release_leaves_no_trace_leftoverWrite :
    ∃ s s', run (System.step eightEach) allFive leftoverWrite = some s ∧
      s.step eightEach putKey8 = some s' ∧ Releases eightEach s s' key8Lock ∧
      (s.threads ⟨0, 0⟩).miniBatchNum = none ∧
      s'.lastAcq eightEach 8 = s.lastAcq eightEach 8 := by
  have hrun : ((run (System.step eightEach) allFive leftoverWrite).bind fun s =>
      (s.step eightEach putKey8).map fun s' =>
        (decide (.unlock key8Lock ∉ s.history ∧ .unlock key8Lock ∈ s'.history),
          (s.threads ⟨0, 0⟩).miniBatchNum)) = some (true, none) := by
    decide +kernel
  obtain ⟨s, hs, hrest⟩ := Option.bind_eq_some_iff.mp hrun
  obtain ⟨s', hs', heq⟩ := Option.map_eq_some_iff.mp hrest
  obtain ⟨hhist, hmb⟩ := Prod.mk.inj heq
  obtain ⟨hnot, hin⟩ := of_decide_eq_true hhist
  obtain ⟨a, -, h⟩ := (traced_init eightEach _ _).run hs
  have hrel := (h.coupled.change_of_step hs').releases hnot hin
  obtain ⟨-, s₁, -, hstamp⟩ :=
    release_leaves_no_trace eightEach _ _ leftoverWrite s s' putKey8 key8Lock hs hs' hrel
      (Or.inr hmb)
  exact ⟨s, s', hs, hs', hrel, hmb, hstamp (Or.inl rfl)⟩

/-- A leftover transaction brings its value with the release; and a reader that rolls back brings
back the stamp from before another reader has committed. -/
theorem release_leaves_trace :
    (∃ s s', run (System.step eightEach) allFive leftoverWrite = some s ∧
      s.step eightEach putKey8 = some s' ∧ s'.history = s.history ++ [.unlock key8Lock] ∧
      (s.threads ⟨0, 0⟩).miniBatchNum = none ∧
      (s.rows (1, 8)).tuple = 5 ∧ (s'.rows (1, 8)).tuple = 7) ∧
    ∃ s s', run (System.step eightEach) allFive sharedReaders = some s ∧
      s.step eightEach (.thread ⟨0, 0⟩ false) = some s' ∧
      s'.history = s.history ++ [.unlock ⟨⟨⟨0, 0⟩, 1⟩, 0, 0, false⟩] ∧
      (s.threads ⟨0, 0⟩).phase = .clear .rollback 0 ∧
      (s.rows (0, 0)).lastAcq = TxnId.ofFields true 0 1 ∧
      (s'.rows (0, 0)).lastAcq = TxnId.ofFields true 0 0 := by
  have hwrite : ((run (System.step eightEach) allFive leftoverWrite).bind fun s =>
      (s.step eightEach putKey8).map fun s' =>
        (decide (s'.history = s.history ++ [.unlock key8Lock]), (s.threads ⟨0, 0⟩).miniBatchNum,
          (s.rows (1, 8)).tuple, (s'.rows (1, 8)).tuple)) = some (true, none, 5, 7) := by
    decide +kernel
  have hread : ((run (System.step eightEach) allFive sharedReaders).bind fun s =>
      (s.step eightEach (.thread ⟨0, 0⟩ false)).map fun s' =>
        (decide (s'.history = s.history ++ [.unlock ⟨⟨⟨0, 0⟩, 1⟩, 0, 0, false⟩]),
          (s.threads ⟨0, 0⟩).phase, (s.rows (0, 0)).lastAcq, (s'.rows (0, 0)).lastAcq)) =
      some (true, .clear .rollback 0, TxnId.ofFields true 0 1, TxnId.ofFields true 0 0) := by
    decide +kernel
  constructor
  · obtain ⟨s, hs, hrest⟩ := Option.bind_eq_some_iff.mp hwrite
    obtain ⟨s', hs', heq⟩ := Option.map_eq_some_iff.mp hrest
    simp only [Prod.mk.injEq, decide_eq_true_eq] at heq
    exact ⟨s, s', hs, hs', heq⟩
  · obtain ⟨s, hs, hrest⟩ := Option.bind_eq_some_iff.mp hread
    obtain ⟨s', hs', heq⟩ := Option.map_eq_some_iff.mp hrest
    simp only [Prod.mk.injEq, decide_eq_true_eq] at heq
    exact ⟨s, s', hs, hs', heq⟩

end System

end P4db
