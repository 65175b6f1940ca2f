import P4db.Algorithm.Transition
import P4db.Ee.HotPeriod
import P4db.Ee.Equiv.Database

/-!
# The barriers of a hot period

The outer loop of `run_hot_period` is a telescope: after a window it waits for as many barriers as
the mini-batch number moves on to the next window, and after the last window for as many as are left
until `exec.mini_batch_num` (`sendLoop_spec`).  A non-empty queue therefore costs a number of
barriers that does not depend on its contents.

* `calls_iff`: over any sequence of batches, every hot period makes the required number of
  `wait_nodes` calls exactly when none of them has an empty queue (or, with an empty queue, what
  happens to be in the first entry of the array stands for the right number).  With an empty queue
  the outer loop does not run, and the barriers it owes are skipped.
-/

namespace P4db

open Transition

/-- Whether the event is a barrier. -/
def HotEvent.isWait {τ π : Type} : HotEvent τ π → Bool
  | .waitNodes => true
  | _ => false

/-- The number of `wait_nodes` calls. -/
def waits {τ π : Type} (evs : List (HotEvent τ π)) : ℕ := evs.countP HotEvent.isWait

namespace HotPeriod

variable {τ π : Type} {q : ℕ → HotTxnEntry τ} {n P E : ℕ}

/-- The first `n` entries are sorted by mini-batch, with numbers from `P` up to `E`. -/
structure SortedQ (q : ℕ → HotTxnEntry τ) (n P E : ℕ) : Prop where
  mono : ∀ i j, i ≤ j → j < n → (q i).miniBatchNum ≤ (q j).miniBatchNum
  ge : ∀ i < n, P ≤ (q i).miniBatchNum
  lt : ∀ i < n, (q i).miniBatchNum < E

/-! ### Counting -/

theorem waits_append (as bs : List (HotEvent τ π)) : waits (as ++ bs) = waits as + waits bs :=
  List.countP_append

theorem waits_sendmsg (pkts : List π) :
    waits (pkts.map HotEvent.sendmsg : List (HotEvent τ π)) = 0 := by
  rw [waits, List.countP_eq_zero]
  intro ev hev
  obtain ⟨pkt, -, rfl⟩ := List.mem_map.mp hev
  exact Bool.false_ne_true

theorem waits_waitLoop (lo hi : ℕ) : waits (waitLoop lo hi : List (HotEvent τ π)) = hi - lo := by
  have hall : ∀ ev ∈ (waitLoop lo hi : List (HotEvent τ π)), ev.isWait = true := by
    intro ev hev
    obtain ⟨_, -, rfl⟩ := List.mem_map.mp hev
    rfl
  rw [waits, List.countP_eq_length.mpr hall, waitLoop, List.length_map, List.length_range']

/-- Whichever way the test after a window falls, the number of barriers is the distance to the next
mini-batch. -/
theorem waits_windowWaits (ws qP : ℕ) :
    waits (windowWaits q n E ws qP : List (HotEvent τ π)) =
      (if qP = n then E else (q qP).miniBatchNum) - (q ws).miniBatchNum := by
  unfold windowWaits
  split_ifs with htest hend hend
  · exact waits_waitLoop _ _
  · exact waits_waitLoop _ _
  · exact absurd (Or.inr hend) htest
  · -- the window was cut at `MAX_IN_FLIGHT`, inside one mini-batch
    have hge : ¬(q ws).miniBatchNum < (q qP).miniBatchNum := fun hlt => htest (Or.inl hlt)
    show 0 = _
    omega

/-! ### The loops -/

theorem fillWindow_spec {ws qP : ℕ} {fuel : ℕ} (hle : qP ≤ n) (hfuel : n < qP + fuel) :
    ∃ qP', fillWindow q n ws fuel qP = some qP' ∧ qP ≤ qP' ∧ qP' ≤ n := by
  induction fuel generalizing qP with
  | zero => omega
  | succ fuel ih =>
    unfold fillWindow
    split_ifs with htest
    · obtain ⟨qP', hrun, hge, hle'⟩ := @ih (qP + 1) (by omega) (by omega)
      exact ⟨qP', hrun, by omega, hle'⟩
    · exact ⟨qP, rfl, Nat.le_refl _, hle⟩

/-- A window is not empty. -/
theorem fillWindow_start {ws : ℕ} (hlt : ws < n) :
    ∃ qP, fillWindow q n ws (n + 1) ws = some qP ∧ ws < qP ∧ qP ≤ n := by
  have htest : ws < n ∧ (q ws).miniBatchNum = (q ws).miniBatchNum ∧ ws - ws < maxInFlight :=
    ⟨hlt, rfl, by rw [Nat.sub_self]; decide⟩
  obtain ⟨qP, hrun, hge, hle⟩ : ∃ qP, fillWindow q n ws n (ws + 1) = some qP ∧
    ws + 1 ≤ qP ∧ qP ≤ n :=
    fillWindow_spec (by omega) (by omega)
  refine ⟨qP, ?_, by omega, hle⟩
  rw [fillWindow, if_pos htest]
  exact hrun

/-- **The outer loop** from the start of a window: the barriers lead from its mini-batch to `E`. -/
theorem sendLoop_spec (hq : SortedQ q n P E) {ws fuel : ℕ} (hle : ws ≤ n) (hfuel : n < ws + fuel) :
    ∃ evs : List (HotEvent τ π), sendLoop q n E fuel ws = some evs ∧
      waits evs = if ws < n then E - (q ws).miniBatchNum else 0 := by
  induction fuel generalizing ws with
  | zero => omega
  | succ fuel ih =>
    unfold sendLoop
    by_cases hlt : ws < n
    · obtain ⟨qP, hwin, hgt, hleP⟩ := fillWindow_start (q := q) hlt
      obtain ⟨rest, hrest, hcount⟩ := @ih qP hleP (by omega)
      have hassert : qP = n ∨ (q ws).miniBatchNum ≤ (q qP).miniBatchNum := by
        by_cases hend : qP = n
        · exact Or.inl hend
        · exact Or.inr (hq.mono ws qP (by omega) (by omega))
      refine ⟨.sendmmsg ((List.range' ws (qP - ws)).map q) ::
        (windowWaits q n E ws qP ++ rest), ?_, ?_⟩
      · simp only [hlt, ↓reduceIte, hwin, hassert, guard, hrest, Option.bind_eq_bind,
          Option.bind_some, Option.pure_def]
      · rw [waits, List.countP_cons]
        show waits (windowWaits q n E ws qP ++ rest) + 0 = _
        rw [waits_append, waits_windowWaits, hcount, if_pos hlt]
        by_cases hend : qP = n
        · rw [if_pos hend, if_neg (by omega)]
          omega
        · -- the two differences telescope over the next window's mini-batch
          have h₁ := hq.mono ws qP (by omega) (by omega)
          have h₂ := hq.lt qP (by omega)
          rw [if_neg hend, if_pos (by omega)]
          omega
    · exact ⟨[], by simp only [hlt, ↓reduceIte], by rw [if_neg hlt]; rfl⟩

theorem waits_firstWaits :
    waits (firstWaits q n P : List (HotEvent τ π)) = (q 0).miniBatchNum - P := by
  unfold firstWaits
  split_ifs with h
  · exact waits_waitLoop _ _
  · have : ¬(q 0).miniBatchNum > P := fun hgt => h (Or.inr hgt)
    show 0 = _
    omega

/-- **One hot period.** It always returns, and the number of its barriers depends on the queue only
through being empty. -/
theorem runHotPeriod_spec (startFill endFill : List π) (hotSendQ : HotSendQ τ)
    (hq : SortedQ hotSendQ.sendQ hotSendQ.sendQTail P E) :
    ∃ evs, runHotPeriod startFill endFill hotSendQ P E = some evs ∧
      waits evs = 2 + if 0 < hotSendQ.sendQTail then E - P
        else (hotSendQ.sendQ 0).miniBatchNum - P := by
  obtain ⟨sent, hsent, hcount⟩ : ∃ evs : List (HotEvent τ π),
      sendLoop hotSendQ.sendQ hotSendQ.sendQTail E (hotSendQ.sendQTail + 1) 0 = some evs ∧ _ :=
    sendLoop_spec hq (Nat.zero_le _) (by omega)
  refine ⟨_, by unfold runHotPeriod; simp only [hsent, Option.bind_eq_bind, Option.bind_some]; rfl,
    ?_⟩
  have hone : waits [(HotEvent.waitNodes : HotEvent τ π)] = 1 := rfl
  simp only [waits_append, waits_sendmsg, waits_firstWaits, hcount, hone]
  split_ifs with hpos
  · have hge := hq.ge 0 hpos
    have hlt := hq.lt 0 hpos
    omega
  · omega

end HotPeriod

/-! ### Batches -/

namespace HotState

variable {τ π : Type} {s s' : HotState τ} {b : HotBatch τ π}

/-- A batch that may follow `past_mb_num = P`: the slots are sorted by mini-batch with numbers from
`P` up to `exec.mini_batch_num`, and there are fewer of them than the queue holds. -/
structure Follows (P : ℕ) (b : HotBatch τ π) : Prop where
  le : P ≤ b.miniBatchNum
  sorted : (b.slots.map Prod.fst).Pairwise (· ≤ ·)
  ge : ∀ e ∈ b.slots, P ≤ e.1
  lt : ∀ e ∈ b.slots, e.1 < b.miniBatchNum
  fits : b.slots.length < batchSizeTgt

/-- A sequence of batches in which each follows the one before. -/
def FollowsAll : ℕ → List (HotBatch τ π) → Prop
  | _, [] => True
  | P, b :: bs => Follows P b ∧ FollowsAll b.miniBatchNum bs

/-- The hot period of the batch makes the required number of `wait_nodes` calls. -/
def CallsOk (s : HotState τ) (b : HotBatch τ π) : Prop :=
  ∀ evs s', s.runBatch b = some (evs, s') → waits evs = 2 + (b.miniBatchNum - s.pastMbNum)

/-- The batch accelerates something, or the first entry of the array, left over from earlier
batches, happens to give the right number. -/
def Filled (s : HotState τ) (b : HotBatch τ π) : Prop :=
  b.slots ≠ [] ∨ max (s.hotSendQ.sendQ 0).miniBatchNum s.pastMbNum = b.miniBatchNum

/-- Between batches the queue is empty. -/
structure Ready (s : HotState τ) : Prop where
  tail : s.hotSendQ.sendQTail = 0
  capacity : s.hotSendQ.sendQCapacity = batchSizeTgt
  inStep : s.hotSendQ.InStep

theorem ready_init (mem : ℕ → HotTxnEntry τ) : (init mem).Ready :=
  ⟨rfl, rfl, (Nat.zero_mul _).symm⟩

/-- One batch from an empty queue. -/
theorem runBatch_spec (h : s.Ready) (hb : Follows s.pastMbNum b) :
    ∃ evs s', s.runBatch b = some (evs, s') ∧ s'.Ready ∧ s'.pastMbNum = b.miniBatchNum ∧
      waits evs = 2 + if b.slots = [] then (s.hotSendQ.sendQ 0).miniBatchNum - s.pastMbNum
        else b.miniBatchNum - s.pastMbNum := by
  have hfits := hb.fits
  obtain ⟨q, hq, htail, hcap, -, hhigh, hent⟩ := HotSendQ.allocSlots_spec h.inStep b.slots
    (by rw [h.tail, h.capacity]; omega)
  simp only [h.tail, Nat.zero_add] at htail hhigh hent
  have hmb : ∀ i (hi : i < b.slots.length), (q.sendQ i).miniBatchNum = b.slots[i].1 :=
    fun i hi => (hent i hi).1
  have hsorted : HotPeriod.SortedQ q.sendQ q.sendQTail s.pastMbNum b.miniBatchNum := by
    refine ⟨?_, ?_, ?_⟩
    · intro i j hij hj
      rw [htail] at hj
      rw [hmb i (by omega), hmb j hj]
      rcases Nat.eq_or_lt_of_le hij with rfl | hlt
      · exact Nat.le_refl _
      · have := List.pairwise_iff_getElem.mp hb.sorted i j (by simp; omega) (by simpa using hj) hlt
        simpa using this
    · intro i hi
      rw [htail] at hi
      rw [hmb i hi]
      exact hb.ge _ (List.getElem_mem hi)
    · intro i hi
      rw [htail] at hi
      rw [hmb i hi]
      exact hb.lt _ (List.getElem_mem hi)
  obtain ⟨evs, hevs, hcount⟩ := HotPeriod.runHotPeriod_spec b.startFill b.endFill q hsorted
  refine ⟨evs, ⟨b.miniBatchNum, q.doneSending⟩, ?_, ⟨rfl, hcap.trans h.capacity, ?_⟩, rfl, ?_⟩
  · simp only [runBatch, hq, hevs, Option.bind_eq_bind, Option.bind_some]
  · exact HotSendQ.inStep_doneSending q
  · rw [hcount, htail]
    by_cases hnil : b.slots = []
    · -- nothing was claimed, so the first entry is the old one
      rw [if_pos hnil, if_neg (by simp [hnil]), hhigh 0 (by simp [hnil])]
    · rw [if_neg hnil, if_pos (List.length_pos_of_ne_nil hnil)]

theorem callsOk_iff_filled (h : s.Ready) (hb : Follows s.pastMbNum b) :
    s.CallsOk b ↔ s.Filled b := by
  obtain ⟨evs, s', hrun, -, -, hcount⟩ := runBatch_spec h hb
  have hle := hb.le
  have hcalls : s.CallsOk b ↔ waits evs = 2 + (b.miniBatchNum - s.pastMbNum) := by
    refine ⟨fun hok => hok evs s' hrun, fun heq evs' s'' hrun' => ?_⟩
    rw [hrun] at hrun'
    rw [← (Prod.mk.inj (Option.some.inj hrun')).1]
    exact heq
  rw [hcalls, hcount, Filled]
  by_cases hnil : b.slots = []
  · simp only [hnil, ↓reduceIte, ne_eq, not_true_eq_false, false_or]
    omega
  · simp only [hnil, ↓reduceIte, ne_eq, not_false_eq_true, true_or]

theorem step_spec (h : s.Ready) (hb : Follows s.pastMbNum b) :
    ∃ s', s.step b = some s' ∧ s'.Ready ∧ s'.pastMbNum = b.miniBatchNum := by
  obtain ⟨evs, s', hrun, hready, hpast, -⟩ := runBatch_spec h hb
  exact ⟨s', by rw [step, hrun]; rfl, hready, hpast⟩

theorem run_spec (h : s.Ready) {bs : List (HotBatch τ π)} (hbs : FollowsAll s.pastMbNum bs) :
    (∃ t, run step s bs = some t) ∧ (AlongRun step CallsOk s bs ↔ AlongRun step Filled s bs) := by
  induction bs generalizing s with
  | nil => exact ⟨⟨s, rfl⟩, Iff.rfl⟩
  | cons b bs ih =>
    obtain ⟨hb, hbs⟩ := hbs
    obtain ⟨s', hstep, hready, hpast⟩ := step_spec h hb
    obtain ⟨⟨t, ht⟩, hiff⟩ := ih hready (hpast ▸ hbs)
    refine ⟨⟨t, run_cons_eq_some.mpr ⟨s', hstep, ht⟩⟩, ?_⟩
    simp only [AlongRun, hstep, Option.some.injEq, forall_eq', callsOk_iff_filled h hb, hiff]

/-- **The barriers of the hot periods.** Whatever the array of the queue holds at the start, every
sequence of batches runs to its end, and all its hot periods make `2 + (exec.mini_batch_num -
past_mb_num)` calls of `wait_nodes` exactly when each of them is filled. -/
theorem calls_iff (mem : ℕ → HotTxnEntry τ) (bs : List (HotBatch τ π)) (hbs : FollowsAll 1 bs) :
    (∃ t, run step (init mem) bs = some t) ∧
      (AlongRun step CallsOk (init mem) bs ↔ AlongRun step Filled (init mem) bs) :=
  run_spec (ready_init mem) hbs

/-- A batch of 21 mini-batches from number `P` on that accelerates one transaction, in the first. -/
def busyBatch (P : ℕ) : HotBatch Unit Unit := ⟨[(P, ())], P + 21, [], []⟩

/-- A batch of 21 mini-batches from number `P` on that accelerates nothing. -/
def idleBatch (P : ℕ) : HotBatch Unit Unit := ⟨[], P + 21, [], []⟩

theorem follows_busyBatch (P : ℕ) : Follows P (busyBatch P) where
  le := Nat.le_add_right _ _
  sorted := List.pairwise_singleton _ _
  ge := by rintro e (_ | ⟨_, ⟨⟩⟩); exact Nat.le_refl P
  lt := by rintro e (_ | ⟨_, ⟨⟩⟩); exact Nat.lt_add_of_pos_right (by decide)
  fits := show 1 < batchSizeTgt by decide

theorem follows_idleBatch (P : ℕ) : Follows P (idleBatch P) where
  le := Nat.le_add_right _ _
  sorted := List.Pairwise.nil
  ge := nofun
  lt := nofun
  fits := show 0 < batchSizeTgt by decide

theorem calls_iff_two_batches :
    FollowsAll 1 [busyBatch 1, busyBatch 22] ∧
      (∃ t, run step (init fun _ => ⟨(), 0, 0, 0⟩) [busyBatch 1, busyBatch 22] = some t) ∧
      AlongRun step Filled (init fun _ => ⟨(), 0, 0, 0⟩) [busyBatch 1, busyBatch 22] ∧
      AlongRun step CallsOk (init fun _ => ⟨(), 0, 0, 0⟩) [busyBatch 1, busyBatch 22] := by
  have hbs : FollowsAll 1 [busyBatch 1, busyBatch 22] :=
    ⟨follows_busyBatch 1, follows_busyBatch 22, trivial⟩
  have hfilled : AlongRun step Filled (init fun _ => ⟨(), 0, 0, 0⟩)
      [busyBatch 1, busyBatch 22] := by
    refine alongRun_of_forall (fun b hb s => .inl ?_) _
    rcases List.mem_pair.mp hb with rfl | rfl <;> exact List.cons_ne_nil _ _
  obtain ⟨hrun, hiff⟩ := calls_iff (fun _ => ⟨(), 0, 0, 0⟩) [busyBatch 1, busyBatch 22] hbs
  exact ⟨hbs, hrun, hfilled, hiff.mpr hfilled⟩

/-- The second batch accelerates nothing: its hot period makes 2 calls where 23 are due. -/
theorem not_callsOk_idleBatch :
    FollowsAll 1 [busyBatch 1, idleBatch 22] ∧
      (∃ s evs t, (init fun _ => ⟨(), 0, 0, 0⟩).step (busyBatch 1) = some s ∧
        s.runBatch (idleBatch 22) = some (evs, t) ∧ s.pastMbNum = 22 ∧ waits evs = 2) ∧
      ¬AlongRun step CallsOk (init fun _ => ⟨(), 0, 0, 0⟩) [busyBatch 1, idleBatch 22] := by
  refine ⟨⟨follows_busyBatch 1, follows_idleBatch 22, trivial⟩,
    ⟨_, _, _, rfl, rfl, rfl, rfl⟩, fun hok => ?_⟩
  have hcalls := (((hok _ rfl).2) _ rfl).1 _ _ rfl
  exact absurd hcalls (by decide)

end HotState

end P4db
