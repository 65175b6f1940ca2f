import P4db.Ee.Equiv.Row
import P4db.Ee.RowT

/-!
# The lock of a row

* `acquire_cases`, `localLock_cases`, `remoteLock_cases`: what an attempt returns, and what it does
  to the row.
* `toRow_acquire`, `toRow_localUnlock` and those for the four functions: a row with a counter of 32
  bits does what the row of the executor does, unless the counter wraps around.
* `inv_step`: the lock invariant of the executor's row, through `toRow`.
* `lock_sound`: the row is locked as its holders say, as long as there are less than `2 ^ 32` of
  them.
* `not_lockedBy_manyReaders`: with `2 ^ 32` readers, `owner_cnt` is 0.
-/

namespace P4db.RowT

open Transition

variable {α : Type*} {row row' : RowT α} {mode : AccessMode} {txnId : TxnId}

/-! ### Attempts -/

/-- An attempt that the assertion lets pass is granted or leaves the row as it is. -/
theorem acquire_cases {granted : Bool} (h : row.acquire mode txnId = some (granted, row')) :
    granted = false ∧ row' = row ∨
      granted = true ∧ row.mbAllowLock txnId = some true ∧ row.isCompatible mode = true ∧
        row' = { row with ownerCnt := row.ownerCnt + 1, lockType := mode } := by
  obtain ⟨allowLock, hallow, heq⟩ := Option.map_eq_some_iff.mp h
  split_ifs at heq with hrefused
  · obtain ⟨rfl, rfl⟩ := Prod.mk.inj heq
    exact .inl ⟨rfl, rfl⟩
  · obtain ⟨rfl, rfl⟩ := Prod.mk.inj heq
    have hboth : row.isCompatible mode = true ∧ allowLock = true := by simpa using hrefused
    exact .inr ⟨rfl, hboth.2 ▸ hallow, hboth.1, rfl⟩

theorem lockFailed_ne_success (mode : AccessMode) : Row.lockFailed mode ≠ .success := by
  cases mode <;> decide

/-- What `local_lock` can do. -/
theorem localLock_cases {compatible : Bool} {rc : ErrorCode} {lastAcq : TxnId}
    (h : row.localLock mode compatible txnId = some (rc, row', lastAcq)) :
    rc = Row.lockFailed mode ∧ row' = row ∨ rc = .success ∧
      row.acquire mode txnId = some (true, row') := by
  unfold localLock at h
  split_ifs at h
  · obtain ⟨rfl, hrest⟩ := Prod.mk.inj (Option.some.inj h)
    exact .inl ⟨rfl, (Prod.mk.inj hrest).1.symm⟩
  · obtain ⟨⟨granted, row''⟩, hacq, heq⟩ := Option.map_eq_some_iff.mp h
    rcases acquire_cases hacq with ⟨rfl, rfl⟩ | ⟨rfl, -⟩
    · obtain ⟨rfl, hrest⟩ := Prod.mk.inj heq
      exact .inl ⟨rfl, (Prod.mk.inj hrest).1.symm⟩
    · obtain ⟨rfl, hrest⟩ := Prod.mk.inj heq
      exact .inr ⟨rfl, (Prod.mk.inj hrest).1 ▸ hacq⟩

/-- What `remote_lock` can do. -/
theorem remoteLock_cases {mePack : BitVec 32} {resMode : AccessMode} {res : Option (BitVec 32 × α)}
    (h : row.remoteLock mode mePack = some (row', resMode, res)) :
    resMode = .invalid ∧ row' = row ∨
      resMode = mode ∧ row.acquire mode (TxnId.ofPacked mePack) = some (true, row') := by
  obtain ⟨⟨granted, row''⟩, hacq, heq⟩ := Option.map_eq_some_iff.mp h
  rcases acquire_cases hacq with ⟨rfl, rfl⟩ | ⟨rfl, -⟩
  · obtain ⟨rfl, hrest⟩ := Prod.mk.inj heq
    exact .inl ⟨(Prod.mk.inj hrest).1.symm, rfl⟩
  · obtain ⟨rfl, hrest⟩ := Prod.mk.inj heq
    exact .inr ⟨(Prod.mk.inj hrest).1.symm, hacq⟩

/-! ### The rows of the executor -/

section ToRow

variable (value : α → BitVec 32)

theorem toNat_ownerCnt_succ (h : row.ownerCnt.toNat + 1 < 2 ^ 32) :
    (row.ownerCnt + 1).toNat = row.ownerCnt.toNat + 1 := by
  rw [UInt32.toNat_add]
  exact Nat.mod_eq_of_lt h

theorem toNat_ownerCnt_pred (h : 0 < row.ownerCnt.toNat) :
    (row.ownerCnt - 1).toNat = row.ownerCnt.toNat - 1 :=
  UInt32.toNat_sub_of_le _ _ h

theorem toRow_acquire (h : row.ownerCnt.toNat + 1 < 2 ^ 32) :
    (row.toRow value).acquire mode txnId =
      (row.acquire mode txnId).map fun r => if r.1 then some (r.2.toRow value) else none := by
  have hallow : (row.toRow value).mbAllowLock txnId = row.mbAllowLock txnId := rfl
  have hcompat : (row.toRow value).isCompatible mode = row.isCompatible mode := rfl
  unfold Row.acquire acquire
  rw [hallow, hcompat, Option.map_map]
  cases row.mbAllowLock txnId with
  | none => rfl
  | some allowLock =>
    rw [Option.bind_eq_bind, Option.bind_some, Option.map_some, Function.comp_apply]
    by_cases hrefused : (!row.isCompatible mode || !allowLock) = true
    · rw [if_pos hrefused, if_pos hrefused]
      rfl
    · rw [if_neg hrefused, if_neg hrefused, if_pos rfl]
      unfold toRow
      rw [toNat_ownerCnt_succ h]

/-- A release, if the counter is not 0 where the mode is right. -/
theorem toRow_localUnlock (h : row.lockType = mode → 0 < row.ownerCnt.toNat) (id : TxnId) :
    (row.toRow value).localUnlock mode id =
    ((row.localUnlock mode id).1, (row.localUnlock mode id).2.toRow value) := by
  unfold Row.localUnlock localUnlock
  by_cases hmode : row.lockType = mode
  · have hpred := toNat_ownerCnt_pred (h hmode)
    have hpos : row.ownerCnt - 1 > 0 ↔ row.ownerCnt.toNat - 1 > 0 := by
      rw [← hpred]
      exact UInt32.lt_iff_toNat_lt
    simp only [toRow, hmode, ne_eq, not_true_eq_false, if_false, hpos]
    split_ifs
    · rw [hpred]
    · rw [hpred]
  · simp only [toRow, ne_eq, hmode, not_false_eq_true, if_true]

/-- `local_lock` from the mutex on. -/
theorem toRow_localLock (h : row.ownerCnt.toNat + 1 < 2 ^ 32) :
    (row.toRow value).localLock mode txnId = (row.localLock mode true txnId).map fun r =>
      if r.1 = .success then .ok (r.2.1.toRow value, r.2.2) else .error r.1 := by
  unfold Row.localLock localLock
  rw [toRow_acquire value h, Option.map_map, Bool.not_true, if_neg Bool.false_ne_true,
    Option.map_map]
  congr 1
  funext r
  cases hr : r.1 with
  | false => simp [hr, lockFailed_ne_success]
  | true => simp [hr, toRow]

theorem toRow_remoteLock (h : row.ownerCnt.toNat + 1 < 2 ^ 32) (mePack : BitVec 32) :
    (row.toRow value).remoteLock mode mePack = (row.remoteLock mode mePack).map fun r =>
      (r.1.toRow value, r.2.2.map fun c => (c.1, value c.2)) := by
  unfold Row.remoteLock remoteLock
  rw [toRow_acquire value h, Option.map_map, Option.map_map]
  cases hacq : row.acquire mode (TxnId.ofPacked mePack) with
  | none => rfl
  | some r =>
    obtain ⟨granted, row'⟩ := r
    rcases acquire_cases hacq with ⟨rfl, rfl⟩ | ⟨rfl, -⟩
    · rfl
    · rfl

theorem toRow_remoteUnlock (h : row.lockType = mode → 0 < row.ownerCnt.toNat) (tuple : α)
    (lastAcqPack : BitVec 32) :
    (row.toRow value).remoteUnlock mode (value tuple) lastAcqPack =
      (row.remoteUnlock mode tuple lastAcqPack).2.toRow value := by
  unfold Row.remoteUnlock remoteUnlock
  by_cases hwrite : mode = .write
  · set copied : RowT α := { row with tuple := tuple }
    have hcopied : copied.lockType = mode → 0 < copied.ownerCnt.toNat := h
    simp only [if_pos hwrite]
    exact congrArg Prod.snd (toRow_localUnlock value hcopied _)
  · simp only [hwrite, if_false]
    rw [toRow_localUnlock value h]

end ToRow

/-! ### The lock under any sequence of calls -/

/-- The row is locked as its holders say. -/
structure LockedBy (row : RowT α) (holders : List AccessMode) : Prop where
  ownerCnt : row.ownerCnt.toNat = holders.length
  idle : row.lockType = .invalid ↔ holders = []
  mode_eq : ∀ mode ∈ holders, mode = row.lockType
  exclusive : row.lockType = .write → holders.length = 1

/-- What holds at any time. -/
structure Sound (s : State α) : Prop extends LockedBy s.row s.holders where
  /-- A failed attempt on the node of the row changes nothing. -/
  localLock : ∀ {mode compatible txnId rc row lastAcq}, s.row.localLock mode compatible txnId =
    some (rc, row, lastAcq) → rc ≠ .success → row = s.row
  /-- A failed attempt of another node changes nothing. -/
  remoteLock : ∀ {mode mePack row res}, mode ≠ .invalid →
    s.row.remoteLock mode mePack = some (row, .invalid, res) → row = s.row
  /-- A holder can release its lock. -/
  localUnlock : ∀ mode ∈ s.holders, ∀ id, (s.row.localUnlock mode id).1 = .success
  remoteUnlock : ∀ mode ∈ s.holders, ∀ tuple lastAcqPack,
    (s.row.remoteUnlock mode tuple lastAcqPack).1 = .success

variable {s s' : State α}

/-- The lock invariant of the row, in which the tuple plays no part. -/
def Inv (s : State α) : Prop := (s.row.toRow fun _ => 0).LockInv s.holders

theorem inv_unlocked (tuple : α) (lastAcq : TxnId) : Inv ⟨unlocked tuple lastAcq, []⟩ :=
  (Row.lockInv_init 0).congr rfl rfl

theorem Inv.ownerCnt (h : Inv s) : s.row.ownerCnt.toNat = s.holders.length := h.count

/-- A lock is granted. -/
theorem Inv.acquire (h : Inv s) (hmode : mode ≠ .invalid)
    (hacq : s.row.acquire mode txnId = some (true, row'))
    (hlt : (mode :: s.holders).length < 2 ^ 32) : Inv ⟨row', mode :: s.holders⟩ := by
  have hcnt : s.row.ownerCnt.toNat + 1 < 2 ^ 32 := by
    rw [h.ownerCnt]
    exact hlt
  have hgrant : (s.row.toRow fun _ => 0).acquire mode txnId =
      some (some (row'.toRow fun _ => 0)) := by
    rw [toRow_acquire _ hcnt, hacq]
    rfl
  exact Row.LockInv.acquire h hmode hgrant

/-- A holder releases its lock. -/
theorem Inv.localUnlock (h : Inv s) {i : ℕ} (hi : s.holders[i]? = some mode) (id : TxnId) :
    (s.row.localUnlock mode id).1 = .success ∧
    Inv ⟨(s.row.localUnlock mode id).2, s.holders.eraseIdx i⟩ := by
  have hmem : mode ∈ s.holders := List.mem_of_getElem? hi
  have hperm : s.holders.Perm (mode :: s.holders.eraseIdx i) := by
    obtain ⟨hlt, heq⟩ := List.getElem?_eq_some_iff.mp hi
    rw [← heq]
    exact (List.getElem_cons_eraseIdx_perm hlt).symm
  have hpos : s.row.lockType = mode → 0 < s.row.ownerCnt.toNat := by
    intro _
    rw [h.ownerCnt]
    exact List.length_pos_of_mem hmem
  have hunlock := toRow_localUnlock (fun _ : α => 0) hpos id
  obtain ⟨hrc, hinv, -⟩ := (Row.LockInv.perm h hperm).localUnlock id
  rw [hunlock] at hrc hinv
  exact ⟨hrc, hinv⟩

/-- The tuple may be changed. -/
theorem Inv.write (h : Inv s) (tuple : α) : Inv { s with row := { s.row with tuple := tuple } } :=
  Row.LockInv.congr h rfl rfl

theorem Inv.remoteUnlock (h : Inv s) {i : ℕ} (hi : s.holders[i]? = some mode) (tuple : α)
    (lastAcqPack : BitVec 32) :
    (s.row.remoteUnlock mode tuple lastAcqPack).1 = .success ∧
      Inv ⟨(s.row.remoteUnlock mode tuple lastAcqPack).2, s.holders.eraseIdx i⟩ := by
  unfold RowT.remoteUnlock
  by_cases hwrite : mode = .write
  · simp only [hwrite, if_true]
    exact (h.write tuple).localUnlock (hwrite ▸ hi) _
  · simp only [hwrite, if_false]
    exact h.localUnlock hi _

/-- **A step** keeps the invariant if the counter does not wrap around. -/
theorem inv_step {a : Action α} (h : Inv s) (hlt : s'.holders.length < 2 ^ 32)
    (hstep : step s a = some s') : Inv s' := by
  cases a with
  | localLock mode compatible txnId =>
    obtain ⟨hmode, hstep⟩ := Option.ite_none_left_eq_some.mp hstep
    obtain ⟨⟨rc, row, lastAcq⟩, hlock, rfl⟩ := Option.map_eq_some_iff.mp hstep
    rcases localLock_cases hlock with ⟨rfl, rfl⟩ | ⟨rfl, hacq⟩
    · have hrefused : decide (Row.lockFailed mode = .success) = false :=
        decide_eq_false (lockFailed_ne_success mode)
      unfold State.attempted
      rw [hrefused]
      exact h
    · exact h.acquire hmode hacq hlt
  | remoteLock mode mePack =>
    obtain ⟨hmode, hstep⟩ := Option.ite_none_left_eq_some.mp hstep
    obtain ⟨⟨row, resMode, res⟩, hlock, rfl⟩ := Option.map_eq_some_iff.mp hstep
    rcases remoteLock_cases hlock with ⟨rfl, rfl⟩ | ⟨rfl, hacq⟩
    · exact h
    · have hgranted : decide (resMode ≠ .invalid) = true := decide_eq_true hmode
      unfold State.attempted at hlt ⊢
      rw [hgranted] at hlt ⊢
      exact h.acquire hmode hacq hlt
  | write i tuple =>
    obtain ⟨-, heq⟩ := Option.ite_none_right_eq_some.mp hstep
    rw [← Option.some.inj heq]
    exact h.write tuple
  | localUnlock i id =>
    obtain ⟨mode, hi, rfl⟩ := Option.map_eq_some_iff.mp hstep
    exact (h.localUnlock hi id).2
  | remoteUnlock i tuple lastAcqPack =>
    obtain ⟨mode, hi, rfl⟩ := Option.map_eq_some_iff.mp hstep
    exact (h.remoteUnlock hi tuple lastAcqPack).2

theorem lockedBy_of_inv (h : Inv s) : LockedBy s.row s.holders where
  ownerCnt := h.ownerCnt
  idle := by
    refine ⟨fun hidle => ?_, h.idle⟩
    rw [List.eq_nil_iff_forall_not_mem]
    intro mode hmem
    exact h.valid mode hmem ((h.mode_eq mode hmem).trans hidle)
  mode_eq := h.mode_eq
  exclusive := by
    intro hwrite
    have hne : s.holders ≠ [] := by
      intro hnil
      have hidle : s.row.lockType = .invalid := h.idle hnil
      exact absurd (hwrite.symm.trans hidle) (by decide)
    exact Nat.le_antisymm (h.exclusive hwrite) (List.length_pos_of_ne_nil hne)

theorem sound_of_inv (h : Inv s) : Sound s where
  toLockedBy := lockedBy_of_inv h
  localLock hlock hrc := by
    rcases localLock_cases hlock with ⟨-, hrow⟩ | ⟨hsuccess, -⟩
    · exact hrow
    · exact absurd hsuccess hrc
  remoteLock hmode hlock := by
    rcases remoteLock_cases hlock with ⟨-, hrow⟩ | ⟨hres, -⟩
    · exact hrow
    · exact absurd hres.symm hmode
  localUnlock mode hmem id := by
    obtain ⟨i, hi⟩ := List.getElem?_of_mem hmem
    exact (h.localUnlock hi id).1
  remoteUnlock mode hmem tuple lastAcqPack := by
    obtain ⟨i, hi⟩ := List.getElem?_of_mem hmem
    exact (h.remoteUnlock hi tuple lastAcqPack).1

theorem length_step_le {a : Action α} (hstep : step s a = some s') :
    s'.holders.length ≤ s.holders.length + 1 := by
  have hattempted : ∀ mode granted row, (s.attempted mode granted row).holders.length ≤
      s.holders.length + 1 := by
    intro mode granted row
    unfold State.attempted
    split_ifs
    · exact Nat.le_refl _
    · exact Nat.le_succ _
  cases a with
  | localLock mode compatible txnId =>
    obtain ⟨-, hstep⟩ := Option.ite_none_left_eq_some.mp hstep
    obtain ⟨r, -, rfl⟩ := Option.map_eq_some_iff.mp hstep
    exact hattempted _ _ _
  | remoteLock mode mePack =>
    obtain ⟨-, hstep⟩ := Option.ite_none_left_eq_some.mp hstep
    obtain ⟨r, -, rfl⟩ := Option.map_eq_some_iff.mp hstep
    exact hattempted _ _ _
  | write i tuple =>
    obtain ⟨-, heq⟩ := Option.ite_none_right_eq_some.mp hstep
    rw [← Option.some.inj heq]
    exact Nat.le_succ _
  | localUnlock i id | remoteUnlock i tuple lastAcqPack =>
    obtain ⟨mode, -, rfl⟩ := Option.map_eq_some_iff.mp hstep
    exact Nat.le_succ_of_le (List.length_eraseIdx_le _ _)

/-- Less than `2 ^ 32` calls cannot make the counter wrap around. -/
theorem onRun_of_length {as : List (Action α)} (h : s.holders.length + as.length < 2 ^ 32) :
    OnRun step (fun s => s.holders.length < 2 ^ 32) s as := by
  induction as generalizing s with
  | nil => exact h
  | cons a as ih =>
    rw [List.length_cons] at h
    refine ⟨by omega, fun s' hstep => ih ?_⟩
    have hle := length_step_le hstep
    omega

/-- Calls of two nodes. -/
def readersThenWriter : List (Action (BitVec 32)) :=
  [.localLock .read true ⟨0, true, 1⟩, .remoteLock .read (TxnId.getPacked ⟨2, true, 1⟩),
    .localLock .write false ⟨0, true, 1⟩, .localUnlock 1 ⟨0, true, 1⟩,
    .remoteUnlock 0 0 (TxnId.getPacked ⟨2, true, 1⟩),
      .remoteLock .write (TxnId.getPacked ⟨2, true, 2⟩), .write 0 5]

/-- **The lock of a row.**  For every sequence of local and remote attempts in mode `READ` or
`WRITE`, of writes by holders, and of releases by holders with the mode that they got: if the row
never has `2 ^ 32` holders at the same time, then at any time

* `owner_cnt` is the number of holders;
* `lock_type` is `INVALID` exactly if there are none, and otherwise the mode of all of them;
* if it is `WRITE`, there is one;
* an attempt that fails leaves the row as it is;
* no release by a holder fails. -/
theorem lock_sound (tuple : α) (lastAcq : TxnId) (as : List (Action α)) (s : State α)
    (hlt : OnRun step (fun s => s.holders.length < 2 ^ 32) ⟨unlocked tuple lastAcq, []⟩ as)
    (hrun : run step ⟨unlocked tuple lastAcq, []⟩ as = some s) : Sound s :=
  sound_of_inv (run_invariant_of_onRun (fun _ _ _ => inv_step)
    (inv_unlocked tuple lastAcq) hlt hrun)

/-- Two readers, a writer that fails, two releases, and a writer that gets the lock. -/
theorem lock_sound_readersThenWriter : ∃ s : State (BitVec 32),
    run step ⟨unlocked 7 (TxnId.ofFields true 0 0), []⟩ readersThenWriter = some s ∧
      s.holders = [.write] ∧ Sound s := by
  have hrun : run step ⟨unlocked 7 (TxnId.ofFields true 0 0), []⟩ readersThenWriter =
      some ⟨⟨.write, 1, 5, ⟨2, true, 1⟩⟩, [.write]⟩ := by decide +kernel
  exact ⟨_, hrun, rfl, lock_sound 7 _ readersThenWriter _ (onRun_of_length (by decide)) hrun⟩

/-! ### The counter wraps around -/

section Readers

variable {tuple : α} {lastAcq : TxnId}

/-- A reader joins the readers. -/
theorem step_read {lockType : AccessMode} {cnt : UInt32} {holders : List AccessMode}
    (htype : lockType ≠ .write) (hallow : (unlocked tuple lastAcq).mbAllowLock txnId = some true) :
    step ⟨⟨lockType, cnt, tuple, lastAcq⟩, holders⟩ (.localLock .read true txnId) =
      some ⟨⟨.read, cnt + 1, tuple, lastAcq⟩, .read :: holders⟩ := by
  have hallow' : (⟨lockType, cnt, tuple, lastAcq⟩ : RowT α).mbAllowLock txnId = some true := hallow
  simp [step, RowT.localLock, RowT.acquire, hallow', isCompatible, htype, State.attempted]

theorem run_replicate_read (hallow : (unlocked tuple lastAcq).mbAllowLock txnId = some true) (n : ℕ)
    (cnt : UInt32) (holders : List AccessMode) :
    run step ⟨⟨.read, cnt, tuple, lastAcq⟩, holders⟩
      (List.replicate n (.localLock .read true txnId)) =
      some ⟨⟨.read, cnt + UInt32.ofNat n, tuple, lastAcq⟩, List.replicate n .read ++ holders⟩ := by
  induction n generalizing cnt holders with
  | zero =>
    show some _ = some _
    simp
  | succ n ih =>
    have hcnt : cnt + 1 + UInt32.ofNat n = cnt + UInt32.ofNat (n + 1) := by
      rw [UInt32.ofNat_add, UInt32.add_assoc, UInt32.add_comm 1]
      rfl
    have hholders : List.replicate n AccessMode.read ++ .read :: holders =
        List.replicate (n + 1) .read ++ holders := by
      rw [List.replicate_succ', List.append_assoc, List.singleton_append]
    rw [List.replicate_succ, run, step_read (by decide) hallow, Option.bind_some, ih,
      hcnt, hholders]

/-- Readers that come to a row that is not locked. -/
theorem run_readers (hallow : (unlocked tuple lastAcq).mbAllowLock txnId = some true) {n : ℕ}
    (hn : 0 < n) :
    run step ⟨unlocked tuple lastAcq, []⟩ (List.replicate n (.localLock .read true txnId)) =
      some ⟨⟨.read, UInt32.ofNat n, tuple, lastAcq⟩, List.replicate n .read⟩ := by
  obtain ⟨m, rfl⟩ := Nat.exists_eq_succ_of_ne_zero (Nat.ne_of_gt hn)
  have hcnt : 0 + 1 + UInt32.ofNat m = UInt32.ofNat (m + 1) := by
    rw [UInt32.ofNat_add, UInt32.add_comm]
    rfl
  rw [List.replicate_succ, run, unlocked, step_read (by decide) hallow, Option.bind_some,
    run_replicate_read hallow, hcnt, ← List.replicate_succ']

end Readers

/-- With `2 ^ 32` readers at the same time `owner_cnt` is 0. -/
theorem not_lockedBy_manyReaders : ∃ s : State (BitVec 32),
    run step ⟨unlocked 7 (TxnId.ofFields true 0 0), []⟩
      (List.replicate (2 ^ 32) (.localLock .read true ⟨0, true, 1⟩)) =
      some s ∧ s.row.ownerCnt = 0 ∧ s.holders.length = 2 ^ 32 ∧ ¬LockedBy s.row s.holders := by
  have hcnt : UInt32.ofNat (2 ^ 32) = 0 := by decide
  refine ⟨_, run_readers rfl (by decide), hcnt, List.length_replicate, fun h => ?_⟩
  have hlength := h.ownerCnt
  rw [List.length_replicate, hcnt] at hlength
  exact absurd hlength (by decide)

end P4db.RowT
