import Mathlib.Data.List.Perm.Basic
import P4db.Ee.Row

/-!
# Locks, stamps and mini-batches

`LockInv` ties a row to the modes its holders obtained; granting and releasing keep it
(`LockInv.acquire`, `LockInv.localUnlock`), and a grant says which modes are held already.

The stamp `last_acq` is meant to keep a row with one node for a whole mini-batch.  It is written
only on release, so it says nothing about locks that are still held:

* `noConflict_of_separated`: in every run in which a lock that passes both tests joins only locks of
  its own node, and a rollback happens only while the stamp is still the one found at acquisition,
  transactions of different nodes that commit in the same mini-batch never held the row in
  conflicting modes.
* `conflict_after_shared_reads`: readers of two nodes hold the row together and commit; the stamp
  names the last of them, and a writer of its node gets the lock in the same mini-batch.
-/

namespace P4db

/-! ### Packed identifiers -/

theorem TxnId.getLsbD_getPacked (id : TxnId) (i : ℕ) :
    id.getPacked.getLsbD i = if i < 4 then id.nodeId.getLsbD i
      else if i < 5 then id.valid else id.miniBatchId.getLsbD (i - 5) := by
  have houter := @BitVec.getLsbD_append 28 4 i (id.miniBatchId ++ BitVec.ofBool id.valid) id.nodeId
  have hinner := @BitVec.getLsbD_append 27 1 (i - 4) id.miniBatchId (BitVec.ofBool id.valid)
  refine houter.trans ?_
  rw [hinner]
  by_cases h₁ : i < 4
  · simp only [h₁, ↓reduceIte]
  · by_cases h₂ : i < 5
    · have hi : i - 4 = 0 := by omega
      simp [h₁, h₂, hi]
    · have hi : ¬i - 4 < 1 := by omega
      have hsub : i - 4 - 1 = i - 5 := by omega
      simp [h₁, h₂, hi, hsub]

theorem TxnId.ofPacked_getPacked (id : TxnId) : TxnId.ofPacked id.getPacked = id := by
  obtain ⟨n, v, m⟩ := id
  rw [TxnId.ofPacked, TxnId.mk.injEq]
  refine ⟨?_, ?_, ?_⟩
  · apply BitVec.eq_of_getLsbD_eq
    intro i hi
    rw [BitVec.getLsbD_extractLsb', TxnId.getLsbD_getPacked, Nat.zero_add, if_pos hi]
    simp only [hi, decide_true, Bool.true_and]
  · rw [TxnId.getLsbD_getPacked]
    rfl
  · apply BitVec.eq_of_getLsbD_eq
    intro i hi
    rw [BitVec.getLsbD_extractLsb', TxnId.getLsbD_getPacked, if_neg (by omega), if_neg (by omega),
      Nat.add_sub_cancel_left]
    simp only [hi, decide_true, Bool.true_and]

namespace Row

variable {row row' : Row} {mode : AccessMode} {modes : List AccessMode} {txnId : TxnId}

/-! ### The lock invariant -/

/-- The row is locked as the modes of its holders say. -/
structure LockInv (row : Row) (modes : List AccessMode) : Prop where
  count : row.ownerCnt = modes.length
  mode_eq : ∀ m ∈ modes, m = row.lockType
  valid : ∀ m ∈ modes, m ≠ .invalid
  idle : modes = [] → row.lockType = .invalid
  exclusive : row.lockType = .write → modes.length ≤ 1

theorem lockInv_init (value : BitVec 32) : LockInv (init value) [] :=
  ⟨rfl, nofun, nofun, fun _ => rfl, nofun⟩

theorem LockInv.perm {modes' : List AccessMode} (h : LockInv row modes)
    (hp : modes.Perm modes') : LockInv row modes' where
  count := h.count.trans hp.length_eq
  mode_eq m hm := h.mode_eq m (hp.mem_iff.mpr hm)
  valid m hm := h.valid m (hp.mem_iff.mpr hm)
  idle hnil := h.idle (List.perm_nil.mp (hnil ▸ hp))
  exclusive hw := hp.length_eq ▸ h.exclusive hw

/-- Tuple and stamp play no part. -/
theorem LockInv.congr (h : LockInv row modes) (hcnt : row'.ownerCnt = row.ownerCnt)
    (htype : row'.lockType = row.lockType) : LockInv row' modes where
  count := hcnt.trans h.count
  mode_eq m hm := htype ▸ h.mode_eq m hm
  valid := h.valid
  idle hnil := htype ▸ h.idle hnil
  exclusive hw := h.exclusive (htype ▸ hw)

/-- A mode is compatible exactly with no holders, or with readers if it is a read. -/
theorem LockInv.isCompatible_iff (h : LockInv row modes) (hmode : mode ≠ .invalid) :
    row.isCompatible mode = true ↔ modes = [] ∨ (mode = .read ∧ ∀ m ∈ modes, m = .read) := by
  cases modes with
  | nil =>
    rw [isCompatible, h.idle rfl]
    exact iff_of_true rfl (Or.inl rfl)
  | cons m ms =>
    have hm := h.mode_eq m List.mem_cons_self
    have hv := h.valid m List.mem_cons_self
    have hall : (∀ m' ∈ m :: ms, m' = .read) ↔ row.lockType = .read :=
      ⟨fun hr => hm ▸ hr m List.mem_cons_self, fun hr m' hm' => hr ▸ h.mode_eq m' hm'⟩
    rw [hall, isCompatible]
    cases hl : row.lockType with
    | invalid => exact absurd (hm.trans hl) hv
    | write => simp
    | read => cases mode <;> simp_all

/-- What it takes for a lock to be granted, and what the row is then. -/
theorem acquire_eq_some_some :
    row.acquire mode txnId = some (some row') ↔
      row.mbAllowLock txnId = some true ∧ row.isCompatible mode = true ∧
        row' = { row with ownerCnt := row.ownerCnt + 1, lockType := mode } := by
  unfold acquire
  cases hallow : row.mbAllowLock txnId with
  | none => simp
  | some a =>
    cases a with
    | false => simp
    | true =>
      cases hc : row.isCompatible mode with
      | false => simp
      | true =>
        simp only [Option.bind_eq_bind, Option.bind_some, Bool.not_true, Bool.or_self,
          Bool.false_eq_true, ↓reduceIte, Option.some.injEq, true_and]
        exact eq_comm

/-- Only the assertion makes a lock attempt fail. -/
theorem acquire_eq_none (h : row.acquire mode txnId = none) : row.mbAllowLock txnId = none := by
  unfold acquire at h
  cases hallow : row.mbAllowLock txnId with
  | none => rfl
  | some b =>
    rw [hallow, Option.bind_eq_bind, Option.bind_some] at h
    split_ifs at h

/-- **A grant** adds its mode to the holders. -/
theorem LockInv.acquire (h : LockInv row modes) (hmode : mode ≠ .invalid)
    (hacq : row.acquire mode txnId = some (some row')) : LockInv row' (mode :: modes) := by
  obtain ⟨-, hcompat, rfl⟩ := acquire_eq_some_some.mp hacq
  have hheld := (h.isCompatible_iff hmode).mp hcompat
  refine ⟨congrArg (· + 1) h.count, ?_, ?_, nofun, ?_⟩
  · intro m hm
    rcases List.mem_cons.mp hm with rfl | hm'
    · rfl
    · rcases hheld with rfl | ⟨rfl, hread⟩
      · cases hm'
      · exact hread m hm'
  · intro m hm
    rcases List.mem_cons.mp hm with rfl | hm
    · exact hmode
    · exact h.valid m hm
  · intro hw
    have hw : mode = .write := hw
    rcases hheld with rfl | ⟨rfl, -⟩
    · exact Nat.le_refl 1
    · cases hw

/-- **A release** by a holder succeeds, takes its mode away and leaves its stamp. -/
theorem LockInv.localUnlock (h : LockInv row (mode :: modes)) (id : TxnId) :
    (row.localUnlock mode id).1 = .success ∧
      LockInv (row.localUnlock mode id).2 modes ∧
      (row.localUnlock mode id).2.lastAcq = id ∧
      (row.localUnlock mode id).2.tuple = row.tuple := by
  have htype : row.lockType = mode := (h.mode_eq mode List.mem_cons_self).symm
  have hcnt : row.ownerCnt = modes.length + 1 := h.count
  have hmodes : ∀ m ∈ modes, m = mode := fun m hm =>
    (h.mode_eq m (List.mem_cons_of_mem _ hm)).trans htype
  have hvalid : ∀ m ∈ modes, m ≠ .invalid := fun m hm => h.valid m (List.mem_cons_of_mem _ hm)
  unfold Row.localUnlock
  simp only [htype, ne_eq, not_true_eq_false, ↓reduceIte, hcnt, Nat.add_sub_cancel]
  split_ifs with hpos
  · refine ⟨rfl, ⟨rfl, hmodes, hvalid, ?_, ?_⟩, rfl, rfl⟩
    · rintro rfl
      exact absurd hpos (Nat.lt_irrefl 0)
    · intro hw
      have hex := h.exclusive (htype.trans hw)
      rw [List.length_cons] at hex
      omega
  · have hnil : modes = [] := List.eq_nil_of_length_eq_zero (by omega)
    subst hnil
    exact ⟨rfl, ⟨rfl, nofun, nofun, fun _ => rfl, nofun⟩, rfl, rfl⟩

theorem mbAllowLock_eq_true {row : Row} {txnId : TxnId} (hvalid : txnId.valid = true)
    (h : row.mbAllowLock txnId = some true) :
    row.lastAcq.miniBatchId = txnId.miniBatchId → row.lastAcq.nodeId = txnId.nodeId := by
  intro heq
  unfold mbAllowLock at h
  simp only [hvalid, ↓reduceIte, heq, BitVec.le_refl, Option.some.injEq] at h
  by_contra hne
  simp [Ne.symm hne] at h

end Row

/-! ### Isolation between nodes -/

namespace MiniBatch

open Transition

/-- No two transactions of different nodes that committed in the same mini-batch held the row in
conflicting modes. -/
def NoConflict (s : State) : Prop :=
  ∀ c ∈ s.committed, ∀ c' ∈ s.committed, c.1.miniBatchId = c'.1.miniBatchId →
    c.1.nodeId ≠ c'.1.nodeId → ¬(c.2 = .write ∨ c'.2 = .write)

/-- A lock that passes `is_compatible` and `mb_allow_lock` joins only locks of its own node, and a
rollback finds the stamp it is about to restore. -/
def Separated (s : State) : Action → Prop
  | .lock _ node mode =>
    s.row.isCompatible mode = true → s.row.mbAllowLock ⟨node, true, s.cur⟩ = some true →
      ∀ h ∈ s.holders, h.id.nodeId = node
  | .rollback attempt => ∀ h, s.holder attempt = some h → s.row.lastAcq = h.seen
  | _ => True

instance (s : State) : (a : Action) → Decidable (Separated s a)
  | .lock _ _ _ => inferInstanceAs (Decidable (_ → _))
  | .rollback attempt =>
    inferInstanceAs (Decidable (∀ h ∈ s.holder attempt, s.row.lastAcq = h.seen))
  | .commit _ => inferInstanceAs (Decidable True)
  | .advance => inferInstanceAs (Decidable True)

/-- What holds as long as every step is separated. -/
structure Inv (s : State) : Prop where
  lock : s.row.LockInv (s.holders.map Holder.mode)
  stamp_le : s.row.lastAcq.miniBatchId ≤ s.cur
  id_cur : ∀ h ∈ s.holders, h.id.miniBatchId = s.cur
  one_node : ∀ h ∈ s.holders, ∀ h' ∈ s.holders, h.id.nodeId = h'.id.nodeId
  holder_stamp : s.row.lastAcq.miniBatchId = s.cur →
    ∀ h ∈ s.holders, h.id.nodeId = s.row.lastAcq.nodeId
  committed_le : ∀ c ∈ s.committed, c.1.miniBatchId ≤ s.cur
  committed_stamp : ∀ c ∈ s.committed, c.1.miniBatchId = s.cur →
    s.row.lastAcq.miniBatchId = s.cur ∧ s.row.lastAcq.nodeId = c.1.nodeId
  committed_node : ∀ c ∈ s.committed, ∀ c' ∈ s.committed, c.1.miniBatchId = c'.1.miniBatchId →
    c.1.nodeId = c'.1.nodeId

theorem inv_init (value : BitVec 32) : Inv (init value) where
  lock := Row.lockInv_init value
  stamp_le := by show (0 : BitVec 27) ≤ 1; decide
  id_cur := nofun
  one_node := nofun
  holder_stamp _ := nofun
  committed_le := nofun
  committed_stamp := nofun
  committed_node := nofun

variable {s s' : State} {a : Action}

theorem noConflict_of_inv (h : Inv s) : NoConflict s := fun c hc c' hc' hmb hnode _ =>
  hnode (h.committed_node c hc c' hc' hmb)

theorem mem_of_holder {attempt : ℕ} {h : Holder} (hh : s.holder attempt = some h) :
    h ∈ s.holders := List.mem_of_find?_eq_some hh

/-- What a step can do. -/
theorem step_cases (h : step s a = some s') :
    (∃ attempt node mode, a = .lock attempt node mode ∧ s' = s) ∨
    (∃ attempt node mode row, a = .lock attempt node mode ∧ mode ≠ .invalid ∧
      s.row.acquire mode ⟨node, true, s.cur⟩ = some (some row) ∧
      s' = { s with
        row := row, holders := ⟨attempt, ⟨node, true, s.cur⟩, mode, s.row.lastAcq⟩ :: s.holders }) ∨
    (∃ attempt hd, a = .commit attempt ∧ s.holder attempt = some hd ∧
      s' = { s.release hd hd.id with committed := (hd.id, hd.mode) :: s.committed }) ∨
    (∃ attempt hd, a = .rollback attempt ∧ s.holder attempt = some hd ∧
      s' = s.release hd hd.seen) ∨
    (a = .advance ∧ s.holders = [] ∧ s.cur.toNat + 1 < 2 ^ 27 ∧
      s' = { s with cur := s.cur + 1 }) := by
  cases a with
  | lock attempt node mode =>
    simp only [step] at h
    split_ifs at h with hg
    rw [not_or] at hg
    obtain ⟨r, hr, heq⟩ := Option.map_eq_some_iff.mp h
    obtain ⟨o, ho, hro⟩ := Option.map_eq_some_iff.mp hr
    cases o with
    | none =>
      subst hro
      exact .inl ⟨attempt, node, mode, rfl, heq.symm⟩
    | some row =>
      subst hro
      exact .inr (.inl ⟨attempt, node, mode, row, rfl, hg.1, ho, heq.symm⟩)
  | commit attempt =>
    obtain ⟨hd, hhd, heq⟩ := Option.map_eq_some_iff.mp h
    exact .inr (.inr (.inl ⟨attempt, hd, rfl, hhd, heq.symm⟩))
  | rollback attempt =>
    obtain ⟨hd, hhd, heq⟩ := Option.map_eq_some_iff.mp h
    exact .inr (.inr (.inr (.inl ⟨attempt, hd, rfl, hhd, heq.symm⟩)))
  | advance =>
    simp only [step] at h
    split_ifs at h with hg
    exact .inr (.inr (.inr (.inr ⟨rfl, hg.1, hg.2, (Option.some.inj h).symm⟩)))

/-- A release takes one lock away and sets the stamp. -/
theorem release_spec (h : Inv s) {hd : Holder} (hmem : hd ∈ s.holders) (stamp : TxnId) :
    (s.release hd stamp).row.LockInv ((s.release hd stamp).holders.map Holder.mode) ∧
      (s.release hd stamp).row.lastAcq = stamp ∧
      ∀ h' ∈ (s.release hd stamp).holders, h' ∈ s.holders := by
  have hperm : (s.holders.map Holder.mode).Perm
      (hd.mode :: (s.holders.erase hd).map Holder.mode) := (List.perm_cons_erase hmem).map _
  obtain ⟨-, hlock, hstamp, -⟩ := (h.lock.perm hperm).localUnlock stamp
  exact ⟨hlock, hstamp, fun h' hh' => List.mem_of_mem_erase hh'⟩

/-- A committed transaction of the running mini-batch is of the node that holds the row. -/
theorem committed_of_holder (h : Inv s) {hd : Holder} (hmem : hd ∈ s.holders)
    {c : TxnId × AccessMode} (hc : c ∈ s.committed) (hcur : c.1.miniBatchId = s.cur) :
    c.1.nodeId = hd.id.nodeId := by
  obtain ⟨hmb, hnode⟩ := h.committed_stamp c hc hcur
  rw [h.holder_stamp hmb hd hmem, hnode]

theorem inv_lock (h : Inv s) {attempt : ℕ} {node : BitVec 4} {mode : AccessMode} {row : Row}
    (hsep : s.row.isCompatible mode = true → s.row.mbAllowLock ⟨node, true, s.cur⟩ = some true →
      ∀ hd ∈ s.holders, hd.id.nodeId = node) (hmode : mode ≠ .invalid)
    (hacq : s.row.acquire mode ⟨node, true, s.cur⟩ = some (some row)) :
    Inv { s with
      row := row, holders :=
  ⟨attempt, ⟨node, true, s.cur⟩, mode, s.row.lastAcq⟩ :: s.holders } := by
  obtain ⟨hallow, hcompat, hrow⟩ := Row.acquire_eq_some_some.mp hacq
  have hstamp : row.lastAcq = s.row.lastAcq := by rw [hrow]
  have hnode : ∀ hd ∈ s.holders, hd.id.nodeId = node := hsep hcompat hallow
  have hnew : s.row.lastAcq.miniBatchId = s.cur → node = s.row.lastAcq.nodeId := fun heq =>
    (Row.mbAllowLock_eq_true rfl hallow heq).symm
  refine ⟨h.lock.acquire hmode hacq, hstamp ▸ h.stamp_le, ?_, ?_, ?_, h.committed_le,
    hstamp ▸ h.committed_stamp, h.committed_node⟩
  · intro hd hmem
    rcases List.mem_cons.mp hmem with rfl | hmem
    · rfl
    · exact h.id_cur hd hmem
  · -- the new lock and the old ones are of one node
    intro hd hmem hd' hmem'
    rcases List.mem_cons.mp hmem with rfl | hmem <;> rcases List.mem_cons.mp hmem' with rfl | hmem'
    · rfl
    · exact (hnode hd' hmem').symm
    · exact hnode hd hmem
    · exact h.one_node hd hmem hd' hmem'
  · intro heq hd hmem
    show hd.id.nodeId = row.lastAcq.nodeId
    rw [hstamp]
    have heq : s.row.lastAcq.miniBatchId = s.cur := by rw [← hstamp]; exact heq
    rcases List.mem_cons.mp hmem with rfl | hmem
    · exact hnew heq
    · exact h.holder_stamp heq hd hmem

theorem inv_commit (h : Inv s) {hd : Holder} (hmem : hd ∈ s.holders) :
    Inv { s.release hd hd.id with committed := (hd.id, hd.mode) :: s.committed } := by
  obtain ⟨hlock, hstamp, hsub⟩ := release_spec h hmem hd.id
  have hcur := h.id_cur hd hmem
  refine ⟨hlock, ?_, fun h' hh' => h.id_cur h' (hsub h' hh'), fun h' hh' h'' hh'' =>
    h.one_node h' (hsub h' hh') h'' (hsub h'' hh''), ?_, ?_, ?_, ?_⟩
  · show (s.release hd hd.id).row.lastAcq.miniBatchId ≤ s.cur
    rw [hstamp, hcur]
    exact BitVec.le_refl _
  · intro _ h' hh'
    show h'.id.nodeId = (s.release hd hd.id).row.lastAcq.nodeId
    rw [hstamp, h.one_node h' (hsub h' hh') hd hmem]
  · intro c hc
    rcases List.mem_cons.mp hc with rfl | hc
    · exact hcur ▸ BitVec.le_refl _
    · exact h.committed_le c hc
  · intro c hc hccur
    show (s.release hd hd.id).row.lastAcq.miniBatchId = s.cur ∧
      (s.release hd hd.id).row.lastAcq.nodeId = c.1.nodeId
    rw [hstamp]
    refine ⟨hcur, ?_⟩
    rcases List.mem_cons.mp hc with rfl | hc
    · rfl
    · exact (committed_of_holder h hmem hc hccur).symm
  · intro c hc c' hc' hmb
    rcases List.mem_cons.mp hc with rfl | hc <;> rcases List.mem_cons.mp hc' with rfl | hc'
    · rfl
    · exact (committed_of_holder h hmem hc' (hmb ▸ hcur)).symm
    · exact committed_of_holder h hmem hc (hmb.trans hcur)
    · exact h.committed_node c hc c' hc' hmb

theorem inv_rollback (h : Inv s) {hd : Holder} (hmem : hd ∈ s.holders)
    (hsep : s.row.lastAcq = hd.seen) : Inv (s.release hd hd.seen) := by
  obtain ⟨hlock, hstamp, hsub⟩ := release_spec h hmem hd.seen
  replace hstamp := hstamp.trans hsep.symm
  refine ⟨hlock, ?_, fun h' hh' => h.id_cur h' (hsub h' hh'),
    fun h' hh' h'' hh'' => h.one_node h' (hsub h' hh') h'' (hsub h'' hh''), ?_, h.committed_le, ?_,
    h.committed_node⟩
  · rw [hstamp]
    exact h.stamp_le
  · rw [hstamp]
    exact fun heq h' hh' => h.holder_stamp heq h' (hsub h' hh')
  · rw [hstamp]
    exact h.committed_stamp

theorem inv_advance (h : Inv s) (hnil : s.holders = []) (hlt : s.cur.toNat + 1 < 2 ^ 27) :
    Inv { s with cur := s.cur + 1 } := by
  have hcur : (s.cur + 1).toNat = s.cur.toNat + 1 := by
    rw [BitVec.toNat_add]
    exact Nat.mod_eq_of_lt hlt
  have hle : ∀ m : BitVec 27, m ≤ s.cur → m ≤ s.cur + 1 ∧ m ≠ s.cur + 1 := by
    intro m hm
    rw [BitVec.le_def] at hm ⊢
    refine ⟨by omega, fun heq => ?_⟩
    rw [heq] at hm
    omega
  have hno : ∀ hd, hd ∉ s.holders := fun hd hmem => by rw [hnil] at hmem; cases hmem
  exact ⟨h.lock, (hle _ h.stamp_le).1, fun hd hmem => absurd hmem (hno hd), h.one_node,
    fun _ hd hmem => absurd hmem (hno hd), fun c hc => (hle _ (h.committed_le c hc)).1,
    fun c hc heq => absurd heq (hle _ (h.committed_le c hc)).2, h.committed_node⟩

theorem step_inv (h : Inv s) (hsep : Separated s a) (hstep : step s a = some s') : Inv s' := by
  obtain ⟨attempt, node, mode, rfl, rfl⟩ | ⟨attempt, node, mode, row, rfl, hmode, hacq, rfl⟩ |
    ⟨attempt, hd, rfl, hhd, rfl⟩ | ⟨attempt, hd, rfl, hhd, rfl⟩ | ⟨rfl, hnil, hlt, rfl⟩ :=
    step_cases hstep
  · exact h
  · exact inv_lock h hsep hmode hacq
  · exact inv_commit h (mem_of_holder hhd)
  · exact inv_rollback h (mem_of_holder hhd) (hsep hd hhd)
  · exact inv_advance h hnil hlt

/-- **Isolation between nodes**, in every state of a run whose steps are all separated. -/
theorem noConflict_of_separated (value : BitVec 32) (as : List Action) (s : State)
    (hsep : AlongRun step Separated (init value) as) (hrun : run step (init value) as = some s) :
    NoConflict s :=
  noConflict_of_inv (run_invariant_of_along (fun _ _ _ => step_inv) (inv_init value) hsep hrun)

/-- Two readers of node 2, one of which rolls back, and a writer in the next mini-batch. -/
theorem noConflict_of_separated_two_readers :
    ∃ s, AlongRun step Separated (init 7) [.lock 0 2 .read, .lock 1 2 .read, .rollback 0, .commit 1,
        .advance, .lock 2 1 .write, .commit 2] ∧
      run step (init 7) [.lock 0 2 .read, .lock 1 2 .read, .rollback 0, .commit 1, .advance,
        .lock 2 1 .write, .commit 2] = some s ∧ NoConflict s :=
  have hsep : AlongRun step Separated (init 7) [.lock 0 2 .read, .lock 1 2 .read, .rollback 0,
      .commit 1, .advance, .lock 2 1 .write, .commit 2] := by decide
  ⟨_, hsep, rfl, noConflict_of_separated 7 _ _ hsep rfl⟩

/-- Readers of the nodes 1 and 2 share the row and commit; the writer of node 2 then gets the lock
in the same mini-batch. -/
theorem conflict_after_shared_reads :
    ∃ s, run step (init 7) [.lock 0 1 .read, .lock 1 2 .read, .commit 0, .commit 1,
        .lock 2 2 .write, .commit 2] = some s ∧ ¬NoConflict s := by
  refine ⟨_, rfl, fun h => ?_⟩
  exact h (⟨1, true, 1⟩, .read) (by decide) (⟨2, true, 1⟩, .write) (by decide) rfl (by decide)
    (Or.inr rfl)

end MiniBatch

end P4db
