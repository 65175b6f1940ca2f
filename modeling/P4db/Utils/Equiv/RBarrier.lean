import P4db.Algorithm.HeadCount
import P4db.Utils.RBarrier

/-!
## The reusable barrier is a barrier

The rounds of the barrier have two phases.  In the first the threads gather: some have entered the
round, the others are not in `wait`, or they have not seen yet that the round before is over.  The
last thread to enter resets `enter_ct` and begins the second phase, where all threads are in the
round, until the last one to add to `exit_ct` resets this.

* `Gather`, `Release`: what holds in the phases of round `K`.
* `gather_step`, `release_step`: what one step does to them.
* `inv_run`: in every run the barrier is in one of the two phases.
* `barrier_safe`: nobody runs ahead, the counters stay in range, and no thread misses a reset.
* `round_le_entered`: nobody has returned from more rounds than another has entered.
* `begun_step`, `ended_step`: with `single` set, the calls of the middle function follow one
  another, one in each round.
-/

namespace P4db.RBarrier

variable {nThreads : UInt32} {single : Bool}

/-! ### The phases -/

/-- Counted in `enter_ct` while the threads gather. -/
def inEnter (t : Thread) : Bool := t.pc = .spinEnter ∨ t.pc = .resetEnter

/-- Counted in `exit_ct`. -/
def inExit (t : Thread) : Bool := t.pc = .spinExit ∨ t.pc = .resetExit

/-- The thread has called the middle function in its round. -/
def hasStarted (nThreads : UInt32) (single : Bool) (t : Thread) : Bool :=
  callsMiddle nThreads single t ∧ (t.pc = .inMiddle ∨ t.pc = .beforeExit ∨ inExit t)

/-- The call has returned. -/
def hasFinished (nThreads : UInt32) (single : Bool) (t : Thread) : Bool :=
  callsMiddle nThreads single t ∧ (t.pc = .beforeExit ∨ inExit t)

/-- The number of calls in a round. -/
def callsPerRound (nThreads : UInt32) (single : Bool) : ℕ := if single then 1 else nThreads.toNat

/-- Where a thread can be while the threads gather for round `K`. -/
def AtGather (nThreads : UInt32) (K : ℕ) (t : Thread) : Prop :=
  match t.pc with
  | .outside => t.round = K
  | .spinEnter => t.round = K ∧ t.myEnterCt ≠ nThreads
  | .resetEnter => t.round = K ∧ t.myEnterCt = nThreads
  -- it has not seen the reset of the round before
  | .spinExit => t.round + 1 = K
  | _ => False

/-- Where a thread can be when all threads have entered round `K`. -/
def AtRelease (nThreads : UInt32) (single : Bool) (K : ℕ) (t : Thread) : Prop :=
  t.round = K ∧
    match t.pc with
    | .outside | .resetEnter => False
    | .beforeMiddle | .inMiddle => callsMiddle nThreads single t = true
    | _ => True

/-- The threads gather for round `K`. -/
structure Gather (single : Bool) (K : ℕ) (s : State nThreads) : Prop where
  resets : s.resets = 2 * K
  at' : ∀ i, AtGather nThreads K (s.thread i)
  enter : s.enterCt.toNat = headCount inEnter s.thread
  exit : s.exitCt = 0
  last : ∀ i, (s.thread i).pc = .resetEnter → headCount inEnter s.thread = nThreads.toNat
  unique : ∀ i j, (s.thread i).pc = .resetEnter → (s.thread j).pc = .resetEnter → i = j
  started : ∀ k, s.started k = if k < K then callsPerRound nThreads single else 0
  finished : ∀ k, s.finished k = if k < K then callsPerRound nThreads single else 0

/-- All threads have entered round `K`. -/
structure Release (single : Bool) (K : ℕ) (s : State nThreads) : Prop where
  resets : s.resets = 2 * K + 1
  at' : ∀ i, AtRelease nThreads single K (s.thread i)
  enter : s.enterCt = 0
  exit : s.exitCt.toNat = headCount inExit s.thread
  last : ∀ i, (s.thread i).pc = .resetExit → headCount inExit s.thread = nThreads.toNat
  unique : ∀ i j, (s.thread i).pc = .resetExit → (s.thread j).pc = .resetExit → i = j
  leader : ∃ i, ∀ j, (s.thread j).myEnterCt = nThreads ↔ j = i
  started : ∀ k, s.started k = if k < K then callsPerRound nThreads single
    else if k = K then headCount (hasStarted nThreads single) s.thread else 0
  finished : ∀ k, s.finished k = if k < K then callsPerRound nThreads single
    else if k = K then headCount (hasFinished nThreads single) s.thread else 0

/-- In one of the phases. -/
def Inv (single : Bool) (s : State nThreads) : Prop := ∃ K, Gather single K s ∨ Release single K s

theorem gather_init : Gather single 0 (State.init nThreads) where
  resets := rfl
  at' _ := rfl
  enter := (headCount_eq_zero fun _ => rfl).symm
  exit := rfl
  last := nofun
  unique := nofun
  started _ := rfl
  finished _ := rfl

theorem headCount_le_nThreads (P : Thread → Bool) (s : State nThreads) :
    headCount P s.thread ≤ nThreads.toNat := by
  have hle := headCount_le P s.thread
  rwa [Fintype.card_fin] at hle

theorem headCount_lt_nThreads {P : Thread → Bool} {s : State nThreads} {i : Fin nThreads.toNat}
    (h : P (s.thread i) = false) : headCount P s.thread < nThreads.toNat := by
  have hlt := headCount_lt h
  rwa [Fintype.card_fin] at hlt

theorem forall_of_headCount_eq {P : Thread → Bool} {s : State nThreads}
    (h : headCount P s.thread = nThreads.toNat) (i : Fin nThreads.toNat) : P (s.thread i) = true :=
  forall_of_headCount (h.trans (Fintype.card_fin _).symm) i

/-- A counter below `n_threads` does not wrap around. -/
theorem toNat_succ {ct : UInt32} (h : ct.toNat < nThreads.toNat) :
    (ct + 1).toNat = ct.toNat + 1 := by
  have hlt := nThreads.toNat_lt
  rw [UInt32.toNat_add]
  exact Nat.mod_eq_of_lt (by simpa using Nat.lt_of_le_of_lt h hlt)

/-- One thread moves; the others are where they were. -/
theorem forall_update {Q : Thread → Prop} {s : State nThreads} {i : Fin nThreads.toNat} {t : Thread}
    (ht : Q t) (h : ∀ j, j ≠ i → Q (s.thread j)) (j : Fin nThreads.toNat) :
    Q (Function.update s.thread i t j) :=
  (Function.forall_update_iff s.thread fun _ => Q).mpr ⟨ht, h⟩ j

theorem pc_of_pc_update {s : State nThreads} {i j : Fin nThreads.toNat} {t : Thread} {pc : Pc}
    (ht : t.pc ≠ pc) (hj : (Function.update s.thread i t j).pc = pc) : (s.thread j).pc = pc := by
  rcases eq_or_ne j i with rfl | hne
  · rw [Function.update_self] at hj
    exact absurd hj ht
  · rwa [Function.update_of_ne hne] at hj

/-! ### One of the counters -/

section Counter
-- the counter `ct` counts the threads with `P`; the last one of them is at `reset`, the others are
-- at `spin`
variable {P : Thread → Bool} {spin reset : Pc} {ct : UInt32} {s : State nThreads}
  {i : Fin nThreads.toNat}

/-- A thread is counted.  It may reset the counter only if all are counted then. -/
theorem count_succ {t : Thread} (hct : ct.toNat = headCount P s.thread)
    (hlast : ∀ j, (s.thread j).pc = reset → headCount P s.thread = nThreads.toNat)
    (hnot : P (s.thread i) = false) (hin : P t = true) (hreset : t.pc = reset → ct + 1 = nThreads) :
    (ct + 1).toNat = headCount P (Function.update s.thread i t) ∧
      (∀ j, (Function.update s.thread i t j).pc = reset →
        headCount P (Function.update s.thread i t) = nThreads.toNat) ∧
      ∀ j j', (Function.update s.thread i t j).pc = reset →
        (Function.update s.thread i t j').pc = reset → j = j' := by
  have hlt := headCount_lt_nThreads hnot
  have hnone : ∀ j, (s.thread j).pc ≠ reset := by
    intro j hj
    have hall := hlast j hj
    omega
  have hcount : (ct + 1).toNat = headCount P (Function.update s.thread i t) := by
    have hupd := headCount_update P s.thread i t
    rw [hnot, hin] at hupd
    rw [toNat_succ (hct ▸ hlt), hct]
    exact hupd.symm
  have hmoved : ∀ j, (Function.update s.thread i t j).pc = reset → j = i ∧ ct + 1 = nThreads := by
    intro j hj
    rcases eq_or_ne j i with rfl | hne
    · rw [Function.update_self] at hj
      exact ⟨rfl, hreset hj⟩
    · rw [Function.update_of_ne hne] at hj
      exact absurd hj (hnone j)
  refine ⟨hcount, fun j hj => ?_, fun j j' hj hj' => ?_⟩
  · rw [← hcount, (hmoved j hj).2]
  · exact (hmoved j hj).1.trans (hmoved j' hj').1.symm

/-- While one thread is about to reset the counter, all others wait for this. -/
theorem pc_eq_spin (hP : ∀ t, P t = true → t.pc = spin ∨ t.pc = reset)
    (hlast : ∀ j, (s.thread j).pc = reset → headCount P s.thread = nThreads.toNat)
    (hunique : ∀ j j', (s.thread j).pc = reset → (s.thread j').pc = reset → j = j')
    (hpc : (s.thread i).pc = reset) (j : Fin nThreads.toNat) (hj : j ≠ i) :
    (s.thread j).pc = spin := by
  have hin : P (s.thread j) = true := forall_of_headCount_eq (hlast i hpc) j
  rcases hP _ hin with hspin | hreset
  · exact hspin
  · exact absurd (hunique j i hreset hpc) hj

/-- A thread that waits finds that the counter is not reset. -/
theorem count_ne_zero (hct : ct.toNat = headCount P s.thread) (hin : P (s.thread i) = true) :
    ct ≠ 0 := by
  intro hzero
  have hpos := headCount_pos hin
  rw [← hct, hzero] at hpos
  exact lt_irrefl 0 hpos

end Counter

/-! ### The threads gather -/

section GatherSteps
variable {K : ℕ} {s : State nThreads} {i : Fin nThreads.toNat} (h : Gather single K s)
include h

theorem Gather.at_pc {pc : Pc} (hpc : (s.thread i).pc = pc) :
    AtGather nThreads K { s.thread i with pc := pc } := by
  subst hpc
  exact h.at' i

/-- A thread enters.  It is the last one exactly if all have entered then. -/
theorem gather_enter (hpc : (s.thread i).pc = .outside) : Gather single K (s.step single i) := by
  have hround : (s.thread i).round = K := h.at_pc hpc
  have hnot : inEnter (s.thread i) = false := by
    simp [inEnter, hpc]
  set my := s.enterCt + 1
  set t : Thread := { s.thread i with
    myEnterCt := my, pc := if my = nThreads then .resetEnter else .spinEnter }
  have hstep : s.step single i = { s.set i t with enterCt := my } := by
    unfold State.step
    simp only [hpc]
    rfl
  have hin : inEnter t = true := by
    show decide ((if my = nThreads then Pc.resetEnter else .spinEnter) = .spinEnter ∨
      (if my = nThreads then Pc.resetEnter else .spinEnter) = .resetEnter) = true
    split_ifs <;> rfl
  have hreset : t.pc = .resetEnter → my = nThreads := by
    intro ht
    by_contra hmy
    exact absurd ((if_neg hmy).symm.trans ht) (by decide)
  obtain ⟨henter, hlast, hunique⟩ := count_succ h.enter h.last hnot hin hreset
  have hat : AtGather nThreads K t := by
    show AtGather nThreads K { s.thread i with
      myEnterCt := my, pc := if my = nThreads then .resetEnter else .spinEnter }
    split_ifs with hmy
    · exact ⟨hround, hmy⟩
    · exact ⟨hround, hmy⟩
  rw [hstep]
  exact { h with
    at' := forall_update hat fun j _ => h.at' j, enter := henter, last := hlast, unique := hunique }

/-- A thread that has entered waits for the others. -/
theorem gather_spinEnter (hpc : (s.thread i).pc = .spinEnter) : s.step single i = s := by
  have hin : inEnter (s.thread i) = true := by
    simp [inEnter, hpc]
  unfold State.step
  simp only [hpc]
  exact if_pos (count_ne_zero h.enter hin)

/-- A thread that was late returns. -/
theorem gather_spinExit (hpc : (s.thread i).pc = .spinExit) :
    Gather single K (s.step single i) := by
  have hround : (s.thread i).round + 1 = K := h.at_pc hpc
  have hstep : s.step single i = s.set i (s.thread i).leave := by
    unfold State.step
    simp only [hpc]
    exact if_neg (not_not.mpr h.exit)
  have hcount : headCount inEnter (Function.update s.thread i (s.thread i).leave) =
      headCount inEnter s.thread := by
    apply headCount_update_of_eq
    simp [inEnter, hpc, Thread.leave]
  have hlast : ∀ j, (Function.update s.thread i (s.thread i).leave j).pc = .resetEnter →
      (s.thread j).pc = .resetEnter := by
    intro j
    apply pc_of_pc_update
    show Pc.outside ≠ .resetEnter
    decide
  rw [hstep]
  refine { h with
    at' := forall_update hround fun j _ => h.at' j, enter := ?_, last := ?_, unique := ?_ }
  · exact h.enter.trans hcount.symm
  · exact fun j hj => hcount.trans (h.last j (hlast j hj))
  · exact fun j j' hj hj' => h.unique j j' (hlast j hj) (hlast j' hj')

/-- The last thread resets `enter_ct`. -/
theorem gather_resetEnter (hpc : (s.thread i).pc = .resetEnter) :
    Release single K (s.step single i) := by
  obtain ⟨hround, hmy⟩ : (s.thread i).round = K ∧ (s.thread i).myEnterCt = nThreads := h.at_pc hpc
  have hcalls : callsMiddle nThreads single (s.thread i) = true := by
    simp [callsMiddle, hmy]
  set t : Thread := { s.thread i with pc := .beforeMiddle } with ht
  have hstep : s.step single i = { s.set i t with enterCt := 0, resets := s.resets + 1 } := by
    unfold State.step afterEnter
    simp only [hpc, hcalls, if_true]
    rfl
  -- all others wait for the reset
  have hothers : ∀ j, j ≠ i → (s.thread j).pc = .spinEnter :=
    pc_eq_spin (fun _ => of_decide_eq_true) h.last h.unique hpc
  have hthread : ∀ {Q : Thread → Prop}, Q t → (∀ j, (s.thread j).pc = .spinEnter → Q (s.thread j)) →
      ∀ j, Q (Function.update s.thread i t j) := fun hQ hspin =>
    forall_update hQ fun j hj => hspin j (hothers j hj)
  have hzero : ∀ P : Thread → Bool, P t = false →
      (∀ j, (s.thread j).pc = .spinEnter → P (s.thread j) = false) →
      headCount P (Function.update s.thread i t) = 0 := fun P hP hspin =>
    headCount_eq_zero (hthread (Q := fun t => P t = false) hP hspin)
  have hnone : ∀ j, (Function.update s.thread i t j).pc ≠ .resetExit :=
    hthread (Q := fun t => t.pc ≠ .resetExit) nofun fun j hj => by rw [hj]; decide
  rw [hstep]
  constructor
  · show s.resets + 1 = 2 * K + 1
    rw [h.resets]
  · apply hthread (Q := AtRelease nThreads single K)
    · exact ⟨hround, hcalls⟩
    · intro j hj
      have hat : (s.thread j).round = K ∧ _ := h.at_pc hj
      unfold AtRelease
      rw [hj]
      exact ⟨hat.1, trivial⟩
  · rfl
  · show s.exitCt.toNat = headCount inExit (Function.update s.thread i t)
    rw [h.exit, hzero inExit rfl fun j hj => by simp [inExit, hj]]
    rfl
  · exact fun j hj => absurd hj (hnone j)
  · exact fun j j' hj => absurd hj (hnone j)
  · refine ⟨i, fun j => ?_⟩
    rcases eq_or_ne j i with rfl | hj
    · show (Function.update s.thread j t j).myEnterCt = nThreads ↔ j = j
      rw [Function.update_self]
      exact iff_of_true hmy rfl
    · have hat : _ ∧ (s.thread j).myEnterCt ≠ nThreads := h.at_pc (hothers j hj)
      show (Function.update s.thread i t j).myEnterCt = nThreads ↔ j = i
      rw [Function.update_of_ne hj]
      exact iff_of_false hat.2 hj
  · intro k
    show s.started k = if k < K then callsPerRound nThreads single
      else if k = K then headCount (hasStarted nThreads single)
        (Function.update s.thread i t) else 0
    rw [h.started k, hzero (hasStarted nThreads single)
        (by simp [hasStarted, inExit, ht]) fun j hj => by
      simp [hasStarted, inExit, hj], ite_self]
  · intro k
    show s.finished k = if k < K then callsPerRound nThreads single
      else if k = K then headCount (hasFinished nThreads single)
        (Function.update s.thread i t) else 0
    rw [h.finished k, hzero (hasFinished nThreads single)
        (by simp [hasFinished, inExit, ht]) fun j hj => by
      simp [hasFinished, inExit, hj], ite_self]

end GatherSteps

/-- **A step while the threads gather.** -/
theorem gather_step {K : ℕ} {s : State nThreads} (h : Gather single K s) (i : Fin nThreads.toNat) :
    Gather single K (s.step single i) ∨ Release single K (s.step single i) := by
  have hat := h.at' i
  unfold AtGather at hat
  cases hpc : (s.thread i).pc with
  | outside => exact .inl (gather_enter h hpc)
  | spinEnter =>
    rw [gather_spinEnter h hpc]
    exact .inl h
  | resetEnter => exact .inr (gather_resetEnter h hpc)
  | spinExit => exact .inl (gather_spinExit h hpc)
  | beforeMiddle | inMiddle | beforeExit | resetExit =>
    rw [hpc] at hat
    exact hat.elim

/-! ### The threads are released -/

section ReleaseSteps
variable {K : ℕ} {s : State nThreads} {i : Fin nThreads.toNat} (h : Release single K s)
include h

theorem Release.round : (s.thread i).round = K := (h.at' i).1

/-- The thread that was last to enter stays the one. -/
theorem Release.leader_update {t : Thread} (hmy : t.myEnterCt = (s.thread i).myEnterCt) :
    ∃ l, ∀ j, (Function.update s.thread i t j).myEnterCt = nThreads ↔ j = l := by
  obtain ⟨l, hl⟩ := h.leader
  refine ⟨l, fun j => ?_⟩
  rw [← hl j]
  rcases eq_or_ne j i with rfl | hne
  · rw [Function.update_self, hmy]
  · rw [Function.update_of_ne hne]

/-- A thread moves on within the round, while the counters and the rest stay. -/
theorem release_set {t : Thread} (hat : AtRelease nThreads single K t)
    (hmy : t.myEnterCt = (s.thread i).myEnterCt) (hexit : inExit t = inExit (s.thread i))
    (hpc : t.pc ≠ .resetExit) {started finished : ℕ → ℕ}
    (hstarted : ∀ k, started k = if k < K then callsPerRound nThreads single
      else if k = K then headCount (hasStarted nThreads single)
        (Function.update s.thread i t) else 0)
    (hfinished : ∀ k, finished k = if k < K then callsPerRound nThreads single
      else if k = K then headCount (hasFinished nThreads single)
        (Function.update s.thread i t) else 0) :
    Release single K { s.set i t with started := started, finished := finished } := by
  have hcount : headCount inExit (Function.update s.thread i t) = headCount inExit s.thread :=
    headCount_update_of_eq hexit
  have hreset : ∀ j, (Function.update s.thread i t j).pc = .resetExit →
      (s.thread j).pc = .resetExit :=
    fun j => pc_of_pc_update hpc
  refine { h with
    at' := forall_update hat fun j _ => h.at' j, exit := ?_, last := ?_, unique := ?_, leader := ?_,
                  started := hstarted, finished := hfinished }
  · exact h.exit.trans hcount.symm
  · exact fun j hj => hcount.trans (h.last j (hreset j hj))
  · exact fun j j' hj hj' => h.unique j j' (hreset j hj) (hreset j' hj')
  · exact h.leader_update hmy

omit h in
/-- One more call in round `K`. -/
theorem update_started {f : ℕ → ℕ} {c m m' : ℕ}
    (hf : ∀ k, f k = if k < K then c else if k = K then m else 0) (hm : m' = m + 1) (k : ℕ) :
    Function.update f K (f K + 1) k = if k < K then c else if k = K then m' else 0 := by
  rcases eq_or_ne k K with rfl | hk
  · rw [Function.update_self, hf]
    simp [hm]
  · rw [Function.update_of_ne hk, hf]
    simp [hk]

/-- A thread sees that all have entered. -/
theorem release_spinEnter (hpc : (s.thread i).pc = .spinEnter) :
    Release single K (s.step single i) := by
  set t := afterEnter nThreads single (s.thread i) with ht
  have hstep : s.step single i =
      { s.set i t with started := s.started, finished := s.finished } := by
    unfold State.step
    simp only [hpc]
    exact if_neg (not_not.mpr h.enter)
  have hcalls : callsMiddle nThreads single t = callsMiddle nThreads single (s.thread i) := rfl
  have htpc : t.pc = if callsMiddle nThreads single (s.thread i) then .beforeMiddle
      else .beforeExit := rfl
  have hsame : hasStarted nThreads single t = hasStarted nThreads single (s.thread i) ∧
      hasFinished nThreads single t = hasFinished nThreads single (s.thread i) := by
    simp only [hasStarted, hasFinished, inExit, hcalls, htpc, hpc]
    cases callsMiddle nThreads single (s.thread i) <;> simp
  rw [hstep]
  apply release_set h
  · refine ⟨h.round, ?_⟩
    rw [htpc]
    by_cases hc : callsMiddle nThreads single (s.thread i) = true
    · rw [if_pos hc]
      exact hcalls.trans hc
    · rw [if_neg hc]
      trivial
  · rfl
  · simp only [inExit, htpc, hpc]
    split_ifs <;> rfl
  · rw [htpc]
    split_ifs <;> decide
  · rw [headCount_update_of_eq hsame.1]
    exact h.started
  · rw [headCount_update_of_eq hsame.2]
    exact h.finished

theorem release_beforeMiddle (hpc : (s.thread i).pc = .beforeMiddle) :
    Release single K (s.step single i) := by
  have hcalls : callsMiddle nThreads single (s.thread i) = true := by
    have hat := (h.at' i).2
    rwa [hpc] at hat
  set t : Thread := { s.thread i with pc := .inMiddle }
  have hcalls' : callsMiddle nThreads single t = true := hcalls
  have htpc : t.pc = .inMiddle := rfl
  have hstep : s.step single i = { s.set i t with
      started := Function.update s.started (s.thread i).round (s.started (s.thread i).round + 1)
      finished := s.finished } := by
    unfold State.step
    simp only [hpc]
    rfl
  have hcount := headCount_update (hasStarted nThreads single) s.thread i t
  have hnot : hasStarted nThreads single (s.thread i) = false := by
    simp [hasStarted, inExit, hpc]
  have hhas : hasStarted nThreads single t = true := by
    simp [hasStarted, hcalls', htpc]
  have hfin : hasFinished nThreads single t = hasFinished nThreads single (s.thread i) := by
    simp [hasFinished, inExit, hpc, htpc]
  rw [hnot, hhas] at hcount
  rw [hstep, h.round]
  apply release_set h
  · exact ⟨h.round, hcalls'⟩
  · rfl
  · simp [inExit, hpc, htpc]
  · exact nofun
  · exact update_started h.started hcount
  · rw [headCount_update_of_eq hfin]
    exact h.finished

theorem release_inMiddle (hpc : (s.thread i).pc = .inMiddle) :
    Release single K (s.step single i) := by
  have hcalls : callsMiddle nThreads single (s.thread i) = true := by
    have hat := (h.at' i).2
    rwa [hpc] at hat
  set t : Thread := { s.thread i with pc := .beforeExit }
  have hcalls' : callsMiddle nThreads single t = true := hcalls
  have htpc : t.pc = .beforeExit := rfl
  have hstep : s.step single i = { s.set i t with
      started := s.started
      finished := Function.update s.finished (s.thread i).round
        (s.finished (s.thread i).round + 1) } := by
    unfold State.step
    simp only [hpc]
    rfl
  have hcount := headCount_update (hasFinished nThreads single) s.thread i t
  have hnot : hasFinished nThreads single (s.thread i) = false := by
    simp [hasFinished, inExit, hpc]
  have hhas : hasFinished nThreads single t = true := by
    simp [hasFinished, hcalls', htpc]
  have hsta : hasStarted nThreads single t = hasStarted nThreads single (s.thread i) := by
    simp [hasStarted, hcalls, hcalls', hpc, htpc]
  rw [hnot, hhas] at hcount
  rw [hstep, h.round]
  apply release_set h
  · exact ⟨h.round, trivial⟩
  · rfl
  · simp [inExit, hpc, htpc]
  · exact nofun
  · rw [headCount_update_of_eq hsta]
    exact h.started
  · exact update_started h.finished hcount

/-- A thread is counted in `exit_ct`. -/
theorem release_beforeExit (hpc : (s.thread i).pc = .beforeExit) :
    Release single K (s.step single i) := by
  have hnot : inExit (s.thread i) = false := by
    simp [inExit, hpc]
  set ct := s.exitCt + 1
  set t : Thread := { s.thread i with
    pc := if ct = nThreads then .resetExit else .spinExit } with ht
  have hstep : s.step single i = { s.set i t with exitCt := ct } := by
    unfold State.step
    simp only [hpc]
    rfl
  have hin : inExit t = true := by
    show decide ((if ct = nThreads then Pc.resetExit else .spinExit) = .spinExit ∨
      (if ct = nThreads then Pc.resetExit else .spinExit) = .resetExit) = true
    split_ifs <;> rfl
  have hreset : t.pc = .resetExit → ct = nThreads := by
    intro ht
    by_contra hct
    exact absurd ((if_neg hct).symm.trans ht) (by decide)
  obtain ⟨hexit, hlast, hunique⟩ := count_succ h.exit h.last hnot hin hreset
  have hcalls : callsMiddle nThreads single t = callsMiddle nThreads single (s.thread i) := rfl
  have hsame : hasStarted nThreads single t = hasStarted nThreads single (s.thread i) ∧
      hasFinished nThreads single t = hasFinished nThreads single (s.thread i) := by
    simp [hasStarted, hasFinished, hcalls, hin, hpc]
  rw [hstep]
  refine { h with
    at' := forall_update ?_ fun j _ => h.at' j, exit := hexit, last := hlast, unique := hunique,
                  leader := h.leader_update rfl, started := ?_, finished := ?_ }
  · refine ⟨h.round, ?_⟩
    show match (if ct = nThreads then Pc.resetExit else .spinExit) with
      | .outside | .resetEnter => False
      | .beforeMiddle | .inMiddle => callsMiddle nThreads single t = true
      | _ => True
    split_ifs <;> trivial
  · show ∀ k, s.started k = if k < K then callsPerRound nThreads single
      else if k = K then headCount (hasStarted nThreads single)
        (Function.update s.thread i t) else 0
    rw [headCount_update_of_eq hsame.1]
    exact h.started
  · show ∀ k, s.finished k = if k < K then callsPerRound nThreads single
      else if k = K then headCount (hasFinished nThreads single)
        (Function.update s.thread i t) else 0
    rw [headCount_update_of_eq hsame.2]
    exact h.finished

/-- A thread that has finished waits for the others. -/
theorem release_spinExit (hpc : (s.thread i).pc = .spinExit) : s.step single i = s := by
  have hin : inExit (s.thread i) = true := by
    simp [inExit, hpc]
  unfold State.step
  simp only [hpc]
  exact if_pos (count_ne_zero h.exit hin)

/-- The calls of the round. -/
theorem headCount_callsMiddle :
    headCount (callsMiddle nThreads single) s.thread = callsPerRound nThreads single := by
  unfold callsPerRound
  cases single with
  | false =>
    have hall : headCount (callsMiddle nThreads false) s.thread =
        Fintype.card (Fin nThreads.toNat) :=
      headCount_eq_card fun _ => rfl
    rw [hall, Fintype.card_fin]
    rfl
  | true =>
    obtain ⟨l, hl⟩ := h.leader
    apply headCount_eq_one (i := l)
    intro j
    rw [← hl j]
    simp [callsMiddle]

/-- The last thread resets `exit_ct`. -/
theorem release_resetExit (hpc : (s.thread i).pc = .resetExit) :
    Gather single (K + 1) (s.step single i) := by
  have hstep : s.step single i =
      { s.set i (s.thread i).leave with exitCt := 0, resets := s.resets + 1 } := by
    unfold State.step
    simp only [hpc]
  have hin : ∀ j, inExit (s.thread j) = true := forall_of_headCount_eq (h.last i hpc)
  -- all others wait for the reset
  have hothers : ∀ j, j ≠ i → (s.thread j).pc = .spinExit :=
    pc_eq_spin (fun _ => of_decide_eq_true) h.last h.unique hpc
  have hthread : ∀ {Q : Thread → Prop}, Q (s.thread i).leave →
      (∀ j, (s.thread j).pc = .spinExit → Q (s.thread j)) →
      ∀ j, Q (Function.update s.thread i (s.thread i).leave j) := fun hQ hspin =>
    forall_update hQ fun j hj => hspin j (hothers j hj)
  have hnone : ∀ j, (Function.update s.thread i (s.thread i).leave j).pc ≠ .resetEnter :=
    hthread (Q := fun t => t.pc ≠ .resetEnter) nofun fun j hj => by rw [hj]; decide
  have hstarted : headCount (hasStarted nThreads single) s.thread =
      callsPerRound nThreads single := by
    rw [← headCount_callsMiddle h]
    exact headCount_congr fun j => by simp [hasStarted, hin j]
  have hfinished : headCount (hasFinished nThreads single) s.thread =
      callsPerRound nThreads single := by
    rw [← headCount_callsMiddle h]
    exact headCount_congr fun j => by simp [hasFinished, hin j]
  rw [hstep]
  constructor
  · show s.resets + 1 = 2 * (K + 1)
    rw [h.resets]
    omega
  · apply hthread (Q := AtGather nThreads (K + 1))
    · exact congrArg (· + 1) h.round
    · intro j hj
      unfold AtGather
      rw [hj]
      exact congrArg (· + 1) h.round
  · show s.enterCt.toNat = headCount inEnter (Function.update s.thread i (s.thread i).leave)
    rw [h.enter, headCount_eq_zero (hthread (Q := fun t => inEnter t = false) rfl
      fun j hj => by simp [inEnter, hj])]
    rfl
  · rfl
  · exact fun j hj => absurd hj (hnone j)
  · exact fun j j' hj => absurd hj (hnone j)
  · intro k
    show s.started k = _
    rw [h.started k, hstarted]
    split_ifs <;> omega
  · intro k
    show s.finished k = _
    rw [h.finished k, hfinished]
    split_ifs <;> omega

end ReleaseSteps

/-- **A step when all threads are in the round.** -/
theorem release_step {K : ℕ} {s : State nThreads} (h : Release single K s)
    (i : Fin nThreads.toNat) :
    Release single K (s.step single i) ∨ Gather single (K + 1) (s.step single i) := by
  have hat := (h.at' i).2
  cases hpc : (s.thread i).pc with
  | spinEnter => exact .inl (release_spinEnter h hpc)
  | beforeMiddle => exact .inl (release_beforeMiddle h hpc)
  | inMiddle => exact .inl (release_inMiddle h hpc)
  | beforeExit => exact .inl (release_beforeExit h hpc)
  | spinExit =>
    rw [release_spinExit h hpc]
    exact .inl h
  | resetExit => exact .inr (release_resetExit h hpc)
  | outside | resetEnter =>
    rw [hpc] at hat
    exact hat.elim

/-! ### Runs -/

/-- The steps of the threads in some order. -/
def State.run (single : Bool) (s : State nThreads) (sched : List (Fin nThreads.toNat)) :
    State nThreads :=
  sched.foldl (State.step single) s

theorem inv_step {s : State nThreads} (h : Inv single s) (i : Fin nThreads.toNat) :
    Inv single (s.step single i) ∧ s.resets ≤ (s.step single i).resets := by
  obtain ⟨K, h | h⟩ := h
  · rcases gather_step h i with h' | h'
    · exact ⟨⟨K, .inl h'⟩, by rw [h.resets, h'.resets]⟩
    · exact ⟨⟨K, .inr h'⟩, by rw [h.resets, h'.resets]; omega⟩
  · rcases release_step h i with h' | h'
    · exact ⟨⟨K, .inr h'⟩, by rw [h.resets, h'.resets]⟩
    · exact ⟨⟨K + 1, .inl h'⟩, by rw [h.resets, h'.resets]; omega⟩

/-- The barrier is always in one of the phases, and it does not go back. -/
theorem inv_run {s : State nThreads} (h : Inv single s) (sched : List (Fin nThreads.toNat)) :
    Inv single (s.run single sched) ∧ s.resets ≤ (s.run single sched).resets := by
  induction sched generalizing s with
  | nil => exact ⟨h, Nat.le_refl _⟩
  | cons i sched ih =>
    obtain ⟨hinv, hle⟩ := inv_step h i
    obtain ⟨hinv', hle'⟩ := ih hinv
    exact ⟨hinv', hle.trans hle'⟩

/-! ### What the phases say -/

section Safety
variable {s : State nThreads} (h : Inv single s)
include h

/-- In the middle function all threads have entered the round. -/
theorem entered_of_inMiddle {i : Fin nThreads.toNat} (hpc : (s.thread i).pc = .inMiddle)
    (j : Fin nThreads.toNat) : (s.thread i).round < (s.thread j).entered := by
  obtain ⟨K, h | h⟩ := h
  · have hat : False := h.at_pc hpc
    exact hat.elim
  · have hout : (s.thread j).pc ≠ .outside := by
      intro hj
      have hat := (h.at' j).2
      rw [hj] at hat
      exact hat
    unfold Thread.entered
    rw [if_neg hout, h.round, h.round]
    exact Nat.lt_succ_self K

/-- A round that a thread has returned from: no thread can be further than the round that the
barrier is in. -/
theorem calls_of_returned {i : Fin nThreads.toNat} {k : ℕ} (hk : k < (s.thread i).round) :
    s.started k = callsPerRound nThreads single ∧ s.finished k = callsPerRound nThreads single := by
  obtain ⟨K, h | h⟩ := h
  · have hle : (s.thread i).round ≤ K := by
      have hat := h.at' i
      unfold AtGather at hat
      split at hat
      · exact hat.le
      · exact hat.1.le
      · exact hat.1.le
      · omega
      · exact hat.elim
    rw [h.started, h.finished]
    exact ⟨if_pos (by omega), if_pos (by omega)⟩
  · rw [h.round] at hk
    rw [h.started, h.finished]
    exact ⟨if_pos hk, if_pos hk⟩

theorem calls_le (k : ℕ) :
    s.started k ≤ callsPerRound nThreads single ∧ s.finished k ≤ s.started k := by
  obtain ⟨K, h | h⟩ := h
  · rw [h.started, h.finished]
    split_ifs <;> omega
  · have hle : headCount (hasStarted nThreads single) s.thread ≤ callsPerRound nThreads single := by
      rw [← headCount_callsMiddle h]
      apply headCount_le_of_imp
      intro i hi
      exact (of_decide_eq_true hi).1
    have hle' : headCount (hasFinished nThreads single) s.thread ≤
        headCount (hasStarted nThreads single) s.thread := by
      apply headCount_le_of_imp
      intro i hi
      have hi := of_decide_eq_true hi
      exact decide_eq_true ⟨hi.1, .inr hi.2⟩
    rw [h.started, h.finished]
    split_ifs <;> omega

theorem counters_le : s.enterCt ≤ nThreads ∧ s.exitCt ≤ nThreads := by
  obtain ⟨K, h | h⟩ := h
  · rw [UInt32.le_iff_toNat_le, h.enter, h.exit]
    exact ⟨headCount_le_nThreads _ s, Nat.zero_le _⟩
  · rw [UInt32.le_iff_toNat_le, UInt32.le_iff_toNat_le, h.exit, h.enter]
    exact ⟨Nat.zero_le _, headCount_le_nThreads _ s⟩

/-- A thread that waits to be let go from `enter_ct`: the reset has been made exactly if the counter
is zero. -/
theorem enterCt_eq_zero_iff {i : Fin nThreads.toNat} (hpc : (s.thread i).pc = .spinEnter) :
    s.enterCt = 0 ↔ 2 * (s.thread i).round < s.resets := by
  obtain ⟨K, h | h⟩ := h
  · have hround : (s.thread i).round = K ∧ _ := h.at_pc hpc
    have hin : inEnter (s.thread i) = true := by
      simp [inEnter, hpc]
    have hpos := headCount_pos hin
    rw [h.resets, hround.1]
    refine iff_of_false (fun hzero => ?_) (lt_irrefl _)
    rw [← h.enter, hzero] at hpos
    exact lt_irrefl 0 hpos
  · rw [h.resets, h.round]
    exact iff_of_true h.enter (Nat.lt_succ_self _)

/-- The same for `exit_ct`. -/
theorem exitCt_eq_zero_iff {i : Fin nThreads.toNat} (hpc : (s.thread i).pc = .spinExit) :
    s.exitCt = 0 ↔ 2 * (s.thread i).round + 1 < s.resets := by
  obtain ⟨K, h | h⟩ := h
  · have hround : (s.thread i).round + 1 = K := h.at_pc hpc
    rw [h.resets, ← hround]
    exact iff_of_true h.exit (by omega)
  · have hin : inExit (s.thread i) = true := by
      simp [inExit, hpc]
    have hpos := headCount_pos hin
    rw [h.resets, h.round]
    refine iff_of_false (fun hzero => ?_) (lt_irrefl _)
    rw [← h.exit, hzero] at hpos
    exact lt_irrefl 0 hpos

end Safety

/-- **The barrier.**  In every state `s` of every run: a thread is in the middle function only when
all threads have entered its round; when a thread has returned from a round, all calls of the middle
function in this round have begun and ended, one for each thread, or one altogether if `single` is
set, and there are never more; the counters are at most `n_threads`.  If a thread that spins finds
its counter zero, then this stays so until it leaves the loop. -/
theorem barrier_safe (nThreads : UInt32) (single : Bool) (sched : List (Fin nThreads.toNat)) :
    let s := (State.init nThreads).run single sched
    (∀ i, (s.thread i).pc = .inMiddle → ∀ j, (s.thread i).round < (s.thread j).entered) ∧
    (∀ i k, k < (s.thread i).round →
      s.started k = callsPerRound nThreads single ∧ s.finished k = callsPerRound nThreads single) ∧
    (∀ k, s.started k ≤ callsPerRound nThreads single ∧ s.finished k ≤ s.started k) ∧
    s.enterCt ≤ nThreads ∧ s.exitCt ≤ nThreads ∧
    ∀ sched' i, ((s.run single sched').thread i).round = (s.thread i).round →
      ((s.thread i).pc = .spinEnter → ((s.run single sched').thread i).pc = .spinEnter →
        s.enterCt = 0 → (s.run single sched').enterCt = 0) ∧
      ((s.thread i).pc = .spinExit → ((s.run single sched').thread i).pc = .spinExit →
        s.exitCt = 0 → (s.run single sched').exitCt = 0) := by
  intro s
  have h : Inv single s := (inv_run ⟨0, .inl gather_init⟩ sched).1
  refine ⟨fun i hpc j => entered_of_inMiddle h hpc j,
    fun i k hk => calls_of_returned h hk, calls_le h, (counters_le h).1, (counters_le h).2,
    fun sched' i hround => ?_⟩
  obtain ⟨h', hle⟩ := inv_run h sched'
  constructor
  · intro hpc hpc' hzero
    rw [enterCt_eq_zero_iff h hpc] at hzero
    rw [enterCt_eq_zero_iff h' hpc', hround]
    exact Nat.lt_of_lt_of_le hzero hle
  · intro hpc hpc' hzero
    rw [exitCt_eq_zero_iff h hpc] at hzero
    rw [exitCt_eq_zero_iff h' hpc', hround]
    exact Nat.lt_of_lt_of_le hzero hle

/-! ### One step, seen from a thread -/

section Thread
variable {s : State nThreads} {i j : Fin nThreads.toNat}

theorem step_thread_of_ne (h : j ≠ i) : (s.step single i).thread j = s.thread j := by
  have hset : ∀ t, (s.set i t).thread j = s.thread j := fun t => Function.update_of_ne h _ _
  cases hpc : (s.thread i).pc with
  | spinEnter | spinExit =>
    simp only [State.step, hpc]
    split_ifs
    · rfl
    · exact hset _
  | outside | resetEnter | beforeMiddle | inMiddle | beforeExit | resetExit =>
    simp only [State.step, hpc]
    exact hset _

/-- A thread that is not in `wait` enters. -/
theorem step_thread_of_outside (h : (s.thread i).pc = .outside) :
    ((s.step single i).thread i).pc ≠ .outside ∧ ((s.step single i).thread i).round =
    (s.thread i).round := by
  simp only [State.step, h, State.set, Function.update_self]
  refine ⟨?_, trivial⟩
  split_ifs <;> decide

/-- A thread in `wait` goes on, or it returns. -/
theorem step_thread_of_inside (h : (s.thread i).pc ≠ .outside) :
    ((s.step single i).thread i).pc ≠ .outside ∧ ((s.step single i).thread i).round =
    (s.thread i).round ∨
      ((s.step single i).thread i).pc = .outside ∧
      ((s.step single i).thread i).round = (s.thread i).round + 1 := by
  cases hpc : (s.thread i).pc with
  | outside => exact absurd hpc h
  | resetEnter =>
    simp only [State.step, hpc, State.set, Function.update_self, afterEnter]
    refine .inl ⟨?_, trivial⟩
    split_ifs <;> decide
  | spinEnter =>
    simp only [State.step, hpc]
    split_ifs
    · exact .inl ⟨h, rfl⟩
    · simp only [State.set, Function.update_self, afterEnter]
      refine .inl ⟨?_, trivial⟩
      split_ifs <;> decide
  | beforeMiddle | inMiddle =>
    simp only [State.step, hpc, State.set, Function.update_self]
    exact .inl ⟨by decide, trivial⟩
  | beforeExit =>
    simp only [State.step, hpc, State.set, Function.update_self]
    refine .inl ⟨?_, trivial⟩
    split_ifs <;> decide
  | resetExit =>
    simp only [State.step, hpc, State.set, Function.update_self, Thread.leave]
    exact .inr ⟨trivial, trivial⟩
  | spinExit =>
    simp only [State.step, hpc]
    split_ifs
    · exact .inl ⟨h, rfl⟩
    · simp only [State.set, Function.update_self, Thread.leave]
      exact .inr ⟨trivial, trivial⟩

end Thread

/-! ### The middle function as a critical section -/

/-- The calls of the middle function that have begun, if there is one in each round. -/
def State.begun (s : State nThreads) : ℕ := s.resets / 2 + s.started (s.resets / 2)

/-- The calls of the middle function that have ended. -/
def State.ended (s : State nThreads) : ℕ := s.resets / 2 + s.finished (s.resets / 2)

section Rounds
variable {s : State nThreads} {i j : Fin nThreads.toNat} {K : ℕ}

theorem Gather.half (h : Gather single K s) : s.resets / 2 = K := by
  rw [h.resets]
  omega

theorem Release.half (h : Release single K s) : s.resets / 2 = K := by
  rw [h.resets]
  omega

theorem Gather.round_le (h : Gather single K s) :
    (s.thread i).round ≤ K ∧ K ≤ (s.thread i).entered := by
  have hat := h.at' i
  unfold AtGather at hat
  unfold Thread.entered
  split at hat
  · next hpc =>
    rw [if_pos hpc]
    omega
  · next hpc =>
    rw [hpc, if_neg (by decide)]
    omega
  · next hpc =>
    rw [hpc, if_neg (by decide)]
    omega
  · next hpc =>
    rw [hpc, if_neg (by decide)]
    omega
  · exact hat.elim

theorem Release.entered_eq (h : Release single K s) : (s.thread i).entered = K + 1 := by
  have hout : (s.thread i).pc ≠ .outside := by
    intro hi
    have hat := (h.at' i).2
    rw [hi] at hat
    exact hat
  unfold Thread.entered
  rw [if_neg hout, h.round]

/-- Nobody has returned from more rounds than another has entered. -/
theorem round_le_entered (h : Inv single s) (i j : Fin nThreads.toNat) :
    (s.thread i).round ≤ (s.thread j).entered := by
  obtain ⟨K, h | h⟩ := h
  · exact h.round_le.1.trans h.round_le.2
  · rw [h.round, h.entered_eq]
    exact Nat.le_succ K

/-- In the middle function all threads are in the same round. -/
theorem together_of_inMiddle (h : Inv single s) (hpc : (s.thread i).pc = .inMiddle)
    (j : Fin nThreads.toNat) :
    (s.thread j).pc ≠ .outside ∧ (s.thread j).round = (s.thread i).round := by
  obtain ⟨K, h | h⟩ := h
  · have hat : False := h.at_pc hpc
    exact hat.elim
  · rw [h.round, h.round]
    refine ⟨fun hout => ?_, rfl⟩
    have hentered : (s.thread j).entered = K + 1 := h.entered_eq
    rw [Thread.entered, if_pos hout, h.round] at hentered
    omega

theorem round_le_ended (h : Inv true s) (i : Fin nThreads.toNat) :
    (s.thread i).round ≤ s.ended := by
  unfold State.ended
  obtain ⟨K, h | h⟩ := h
  · rw [h.half]
    exact h.round_le.1.trans (Nat.le_add_right _ _)
  · rw [h.half, h.round]
    exact Nat.le_add_right _ _

theorem ended_le_begun (h : Inv true s) : s.ended ≤ s.begun ∧ s.begun ≤ s.ended + 1 := by
  have hle := calls_le h (s.resets / 2)
  have hone : callsPerRound nThreads true = 1 := rfl
  unfold State.ended State.begun
  omega

theorem begun_le_entered (h : Inv true s) (i : Fin nThreads.toNat) :
    s.begun ≤ (s.thread i).entered := by
  have hle := calls_le h (s.resets / 2)
  have hone : callsPerRound nThreads true = 1 := rfl
  unfold State.begun
  obtain ⟨K, h | h⟩ := h
  · rw [h.half, h.started, if_neg (lt_irrefl K)]
    exact h.round_le.2
  · rw [h.half] at hle ⊢
    rw [h.entered_eq]
    omega

/-- The middle function is called once more. -/
theorem begun_step (h : Inv true s) (i : Fin nThreads.toNat) :
    (s.step true i).begun = s.begun + if (s.thread i).pc = .beforeMiddle then 1 else 0 := by
  obtain ⟨K, hK⟩ := h
  cases hpc : (s.thread i).pc with
  | outside | inMiddle | beforeExit =>
    simp only [State.begun, State.step, hpc, State.set, reduceCtorEq, if_false, Nat.add_zero]
  | spinEnter | spinExit =>
    simp only [State.begun, State.step, hpc, reduceCtorEq, if_false, Nat.add_zero]
    split_ifs <;> rfl
  | resetEnter =>
    rcases hK with h | h
    · have hhalf : (s.resets + 1) / 2 = s.resets / 2 := by
        rw [h.resets]
        omega
      simp only [State.begun, State.step, hpc, State.set, hhalf, reduceCtorEq, if_false,
        Nat.add_zero]
    · have hat := (h.at' i).2
      rw [hpc] at hat
      exact hat.elim
  | beforeMiddle =>
    rcases hK with h | h
    · have hat : False := h.at_pc hpc
      exact hat.elim
    · have hround : (s.thread i).round = s.resets / 2 := by rw [h.round, h.half]
      simp only [State.begun, State.step, hpc, State.set, hround, Function.update_self, if_true]
      omega
  | resetExit =>
    rcases hK with h | h
    · have hat : False := h.at_pc hpc
      exact hat.elim
    · -- the call of the round that ends is in the past
      have hlast := release_resetExit h hpc
      have hstarted : s.started K = 1 := by
        have hK := hlast.started K
        rw [if_pos (Nat.lt_succ_self K)] at hK
        simp only [State.step, hpc, State.set] at hK
        exact hK
      have hnext : s.started (K + 1) = 0 := by
        rw [h.started, if_neg (by omega), if_neg (by omega)]
      have hhalf : (s.resets + 1) / 2 = K + 1 := by
        rw [h.resets]
        omega
      simp only [State.begun, State.step, hpc, State.set, hhalf, h.half, hstarted, hnext,
        reduceCtorEq, if_false]

/-- The middle function returns once more. -/
theorem ended_step (h : Inv true s) (i : Fin nThreads.toNat) :
    (s.step true i).ended = s.ended + if (s.thread i).pc = .inMiddle then 1 else 0 := by
  obtain ⟨K, hK⟩ := h
  cases hpc : (s.thread i).pc with
  | outside | beforeMiddle | beforeExit =>
    simp only [State.ended, State.step, hpc, State.set, reduceCtorEq, if_false, Nat.add_zero]
  | spinEnter | spinExit =>
    simp only [State.ended, State.step, hpc, reduceCtorEq, if_false, Nat.add_zero]
    split_ifs <;> rfl
  | resetEnter =>
    rcases hK with h | h
    · have hhalf : (s.resets + 1) / 2 = s.resets / 2 := by
        rw [h.resets]
        omega
      simp only [State.ended, State.step, hpc, State.set, hhalf, reduceCtorEq, if_false,
        Nat.add_zero]
    · have hat := (h.at' i).2
      rw [hpc] at hat
      exact hat.elim
  | inMiddle =>
    rcases hK with h | h
    · have hat : False := h.at_pc hpc
      exact hat.elim
    · have hround : (s.thread i).round = s.resets / 2 := by rw [h.round, h.half]
      simp only [State.ended, State.step, hpc, State.set, hround, Function.update_self, if_true]
      omega
  | resetExit =>
    rcases hK with h | h
    · have hat : False := h.at_pc hpc
      exact hat.elim
    · have hlast := release_resetExit h hpc
      have hfinished : s.finished K = 1 := by
        have hK := hlast.finished K
        rw [if_pos (Nat.lt_succ_self K)] at hK
        simp only [State.step, hpc, State.set] at hK
        exact hK
      have hnext : s.finished (K + 1) = 0 := by
        rw [h.finished, if_neg (by omega), if_neg (by omega)]
      have hhalf : (s.resets + 1) / 2 = K + 1 := by
        rw [h.resets]
        omega
      simp only [State.ended, State.step, hpc, State.set, hhalf, h.half, hfinished, hnext,
        reduceCtorEq, if_false]

/-- A thread that is about to call the middle function finds no call going on, and no thread
outside. -/
theorem of_beforeMiddle (h : Inv true s) (hpc : (s.thread i).pc = .beforeMiddle) :
    s.begun = s.ended ∧ ∀ j, (s.thread j).pc ≠ .outside := by
  have hinv := (inv_step h i).1
  have hbegun := begun_step h i
  have hended := ended_step h i
  rw [hpc, if_pos rfl] at hbegun
  rw [hpc, if_neg (by decide)] at hended
  have hle := ended_le_begun h
  have hle' := ended_le_begun hinv
  refine ⟨by omega, fun j hj => ?_⟩
  have hne : j ≠ i := by
    rintro rfl
    rw [hpc] at hj
    cases hj
  -- the thread outside has not entered the round whose call begins
  have hround := round_le_ended h j
  have hentered := begun_le_entered hinv j
  rw [step_thread_of_ne hne, Thread.entered, if_pos hj] at hentered
  omega

theorem of_inMiddle (h : Inv true s) (hpc : (s.thread i).pc = .inMiddle) :
    s.begun = s.ended + 1 := by
  have hinv := (inv_step h i).1
  have hbegun := begun_step h i
  have hended := ended_step h i
  rw [hpc, if_neg (by decide)] at hbegun
  rw [hpc, if_pos rfl] at hended
  have hle := ended_le_begun h
  have hle' := ended_le_begun hinv
  omega

end Rounds

end P4db.RBarrier
