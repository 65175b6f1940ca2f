import P4db.Algorithm.Rounds
import P4db.Comm.Equiv.Barrier
import P4db.Ee.Equiv.HotPeriod

/-!
# Hot packets between barriers

Read as a clock that every `wait_nodes` call advances by one, the events of a hot period send each
queue entry when the clock shows its mini-batch (`PlacedFrom`).  The windows are the queue, cut into
pieces of one mini-batch and at most `MAX_IN_FLIGHT` entries (`sendLoop_windows`).

* `hot_packets_in_order`: so it is in every hot period; and when several nodes run their hot periods
  with barriers that nobody leaves before everybody has entered them, a packet is sent only after
  all packets of smaller mini-batches on all nodes.
* `run_of_barrier`: the barrier of two nodes is of that kind.
-/

namespace P4db

namespace HotPeriod

variable {τ π : Type} {q : ℕ → HotTxnEntry τ} {n P E : ℕ} {evs : List (HotEvent τ π)}
  {w : List (HotTxnEntry τ)}

/-! ### Windows -/

/-- The windows of a sequence of events. -/
def windows : List (HotEvent τ π) → List (List (HotTxnEntry τ))
  | [] => []
  | .sendmmsg w :: evs => w :: windows evs
  | _ :: evs => windows evs

@[simp] theorem windows_append (evs evs' : List (HotEvent τ π)) :
    windows (evs ++ evs') = windows evs ++ windows evs' := by
  induction evs with
  | nil => rfl
  | cons ev evs ih => cases ev <;> simp [windows, ih]

@[simp] theorem windows_sendmsg (pkts : List π) :
    windows (pkts.map HotEvent.sendmsg : List (HotEvent τ π)) = [] := by
  induction pkts with
  | nil => rfl
  | cons pkt pkts ih => simp [windows, ih]

@[simp] theorem windows_waitLoop (lo hi : ℕ) :
    windows (waitLoop lo hi : List (HotEvent τ π)) = [] := by
  unfold waitLoop
  induction List.range' lo (hi - lo) with
  | nil => rfl
  | cons i is ih => simpa [windows] using ih

@[simp] theorem windows_windowWaits (ws qP : ℕ) :
    windows (windowWaits q n E ws qP : List (HotEvent τ π)) = [] := by
  unfold windowWaits
  split_ifs <;> simp [windows]

@[simp] theorem windows_firstWaits :
    windows (firstWaits q n P : List (HotEvent τ π)) = [] := by
  unfold firstWaits
  split_ifs <;> simp [windows]

theorem exists_of_mem_windows (h : w ∈ windows evs) :
    ∃ pre post, evs = pre ++ .sendmmsg w :: post := by
  induction evs with
  | nil => cases h
  | cons ev evs ih =>
    have hlift : w ∈ windows evs → ∃ pre post, ev :: evs = pre ++ .sendmmsg w :: post := by
      intro hw
      obtain ⟨pre, post, hevs⟩ := ih hw
      exact ⟨ev :: pre, post, congrArg (ev :: ·) hevs⟩
    cases ev with
    | waitNodes => exact hlift h
    | sendmsg pkt => exact hlift h
    | sendmmsg w' =>
      rcases List.mem_cons.mp h with rfl | hw
      · exact ⟨[], evs, rfl⟩
      · exact hlift hw

/-! ### The clock -/

/-- With a clock that shows `m` at first and goes on by one at every barrier, every window is sent
when the clock shows the mini-batch of its entries. -/
def PlacedFrom : ℕ → List (HotEvent τ π) → Prop
  | _, [] => True
  | m, .waitNodes :: evs => PlacedFrom (m + 1) evs
  | m, .sendmsg _ :: evs => PlacedFrom m evs
  | m, .sendmmsg w :: evs => (∀ e ∈ w, e.miniBatchNum = m) ∧ PlacedFrom m evs

theorem waits_cons (ev : HotEvent τ π) (evs : List (HotEvent τ π)) :
    waits (ev :: evs) = waits evs + if ev.isWait = true then 1 else 0 :=
  List.countP_cons ..

theorem placedFrom_append (m : ℕ) (evs evs' : List (HotEvent τ π)) :
    PlacedFrom m (evs ++ evs') ↔ PlacedFrom m evs ∧ PlacedFrom (m + waits evs) evs' := by
  induction evs generalizing m with
  | nil => simp [PlacedFrom, waits]
  | cons ev evs ih =>
    cases ev with
    | waitNodes =>
      have hclock : m + 1 + waits evs = m + (waits evs + 1) := by omega
      simp [PlacedFrom, ih, waits_cons, HotEvent.isWait, hclock]
    | sendmsg pkt => simp [PlacedFrom, ih, waits_cons, HotEvent.isWait]
    | sendmmsg w => simp [PlacedFrom, ih, waits_cons, HotEvent.isWait, and_assoc]

/-- Events without windows are placed. -/
theorem placedFrom_of_windows {m : ℕ} (h : windows evs = []) : PlacedFrom m evs := by
  induction evs generalizing m with
  | nil => trivial
  | cons ev evs ih =>
    cases ev with
    | waitNodes => exact ih h
    | sendmsg pkt => exact ih h
    | sendmmsg w => cases h

/-- What the clock shows at a window. -/
theorem PlacedFrom.clock {m : ℕ} {pre post : List (HotEvent τ π)} (h : PlacedFrom m evs)
    (hevs : evs = pre ++ .sendmmsg w :: post) {e : HotTxnEntry τ} (he : e ∈ w) :
    e.miniBatchNum = m + waits pre := by
  rw [hevs, placedFrom_append] at h
  exact h.2.1 e he

/-! ### The loops -/

/-- A window is cut at its size, at the end of its mini-batch, or at the end of the queue. -/
theorem fillWindow_pure {ws qP qP' fuel : ℕ} (hrun : fillWindow q n ws fuel qP = some qP')
    (hsize : qP - ws ≤ maxInFlight)
    (hpure : ∀ k, ws ≤ k → k < qP → (q k).miniBatchNum = (q ws).miniBatchNum) :
    qP' - ws ≤ maxInFlight ∧
      ∀ k, ws ≤ k → k < qP' → (q k).miniBatchNum = (q ws).miniBatchNum := by
  induction fuel generalizing qP with
  | zero => cases hrun
  | succ fuel ih =>
    unfold fillWindow at hrun
    split_ifs at hrun with htest
    · refine ih hrun (by omega) fun k hk hlt => ?_
      rcases Nat.lt_succ_iff_lt_or_eq.mp hlt with hlt | rfl
      · exact hpure k hk hlt
      · exact htest.2.1.symm
    · obtain rfl := Option.some.inj hrun
      exact ⟨hsize, hpure⟩

/-- The outer loop ends at the end of the queue. -/
theorem sendLoop_end {fuel ws : ℕ} (hrun : sendLoop q n E fuel ws = some evs) (hge : ¬ws < n) :
    evs = [] := by
  cases fuel with
  | zero => cases hrun
  | succ fuel =>
    unfold sendLoop at hrun
    rw [if_neg hge] at hrun
    exact (Option.some.inj hrun).symm

/-- One iteration of the outer loop, taken apart. -/
theorem sendLoop_cases {fuel ws : ℕ} (hrun : sendLoop q n E (fuel + 1) ws = some evs)
    (hlt : ws < n) :
    ∃ qP rest, ws < qP ∧ qP ≤ n ∧ qP - ws ≤ maxInFlight ∧
      (∀ k, ws ≤ k → k < qP → (q k).miniBatchNum = (q ws).miniBatchNum) ∧
      sendLoop q n E fuel qP = some rest ∧
      evs = .sendmmsg ((List.range' ws (qP - ws)).map q) :: (windowWaits q n E ws qP ++ rest) := by
  obtain ⟨qP, hwin, hgt, hle⟩ := fillWindow_start (q := q) hlt
  have hzero : ws - ws ≤ maxInFlight := by omega
  obtain ⟨hsize, hpure⟩ := fillWindow_pure hwin hzero fun k hk hk' => absurd hk' (by omega)
  unfold sendLoop at hrun
  rw [if_pos hlt, hwin, Option.bind_eq_bind, Option.bind_some] at hrun
  obtain ⟨-, -, hrun⟩ := Option.bind_eq_some_iff.mp hrun
  obtain ⟨rest, hrest, hevs⟩ := Option.bind_eq_some_iff.mp hrun
  exact ⟨qP, rest, hgt, hle, hsize, hpure, hrest, (Option.some.inj hevs).symm⟩

/-- **The windows are the queue**, cut into pieces of one mini-batch. -/
theorem sendLoop_windows {fuel ws : ℕ} (hle : ws ≤ n) (hrun : sendLoop q n E fuel ws = some evs) :
    (windows evs).flatten = (List.range' ws (n - ws)).map q ∧
      ∀ w ∈ windows evs, w.length ≤ maxInFlight ∧
        ∀ e ∈ w, ∀ e' ∈ w, e.miniBatchNum = e'.miniBatchNum := by
  induction fuel generalizing ws evs with
  | zero => cases hrun
  | succ fuel ih =>
    by_cases hlt : ws < n
    · obtain ⟨qP, rest, hgt, hleP, hsize, hpure, hrest, rfl⟩ := sendLoop_cases hrun hlt
      obtain ⟨hflat, hall⟩ := ih hleP hrest
      have hmb : ∀ e ∈ (List.range' ws (qP - ws)).map q, e.miniBatchNum = (q ws).miniBatchNum := by
        intro e he
        obtain ⟨k, hk, rfl⟩ := List.mem_map.mp he
        rw [List.mem_range'_1] at hk
        exact hpure k hk.1 (by omega)
      simp only [windows, windows_append, windows_windowWaits, List.nil_append, List.flatten_cons,
        hflat]
      constructor
      · -- the entries from `ws` to `qP`, and those from `qP` on
        have hcut : n - ws = (qP - ws) + (n - qP) := by omega
        have hqP : ws + 1 * (qP - ws) = qP := by omega
        rw [hcut, List.range'_append.symm, hqP, List.map_append]
      · intro w hw
        rcases List.mem_cons.mp hw with rfl | hw
        · refine ⟨by simpa using hsize, fun e he e' he' => ?_⟩
          rw [hmb e he, hmb e' he']
        · exact hall w hw
    · obtain rfl := sendLoop_end hrun hlt
      have hzero : n - ws = 0 := by omega
      rw [hzero]
      exact ⟨rfl, nofun⟩

/-- The clock starts at the mini-batch of the first window. -/
theorem sendLoop_placed (hq : SortedQ q n P E) {fuel ws : ℕ} (hle : ws ≤ n)
    (hrun : sendLoop q n E fuel ws = some evs) : PlacedFrom (q ws).miniBatchNum evs := by
  induction fuel generalizing ws evs with
  | zero => cases hrun
  | succ fuel ih =>
    by_cases hlt : ws < n
    · obtain ⟨qP, rest, hgt, hleP, hsize, hpure, hrest, rfl⟩ := sendLoop_cases hrun hlt
      constructor
      · intro e he
        obtain ⟨k, hk, rfl⟩ := List.mem_map.mp he
        rw [List.mem_range'_1] at hk
        exact hpure k hk.1 (by omega)
      · rw [placedFrom_append, waits_windowWaits]
        refine ⟨placedFrom_of_windows (windows_windowWaits ws qP), ?_⟩
        by_cases hend : qP = n
        · -- nothing is sent after the last window
          obtain rfl := sendLoop_end hrest (by omega)
          trivial
        · have hmono := hq.mono ws qP (by omega) (by omega)
          have hclock : (q ws).miniBatchNum + ((q qP).miniBatchNum - (q ws).miniBatchNum) =
              (q qP).miniBatchNum := by omega
          rw [if_neg hend, hclock]
          exact ih hleP hrest
    · obtain rfl := sendLoop_end hrun hlt
      trivial

/-! ### One hot period -/

/-- Where the entries of a queue are sent: each once and in queue order, in windows of one
mini-batch and of bounded size, after one barrier and as many more as the mini-batch is ahead of
`P`. -/
structure InPlace (P : ℕ) (hotSendQ : HotSendQ τ) (evs : List (HotEvent τ π)) : Prop where
  sent : (windows evs).flatten = (List.range hotSendQ.sendQTail).map hotSendQ.sendQ
  size : ∀ w ∈ windows evs, w.length ≤ maxInFlight
  pure : ∀ w ∈ windows evs, ∀ e ∈ w, ∀ e' ∈ w, e.miniBatchNum = e'.miniBatchNum
  place : ∀ pre w post, evs = pre ++ .sendmmsg w :: post → ∀ e ∈ w,
    waits pre = 1 + (e.miniBatchNum - P)

/-- Events without windows come before every window. -/
theorem exists_append_of_windows {evs₀ pre post : List (HotEvent τ π)} (hnil : windows evs₀ = [])
    (h : evs₀ ++ evs = pre ++ .sendmmsg w :: post) :
    ∃ pre', pre = evs₀ ++ pre' ∧ evs = pre' ++ .sendmmsg w :: post := by
  rcases List.append_eq_append_iff.mp h with ⟨pre', rfl, hevs⟩ | ⟨l, rfl, hpost⟩
  · exact ⟨pre', rfl, hevs⟩
  · cases l with
    | nil => exact ⟨[], by simp, by simpa using hpost.symm⟩
    | cons ev l =>
      -- the window would be among the events without windows
      obtain ⟨rfl, -⟩ := List.cons.inj hpost
      rw [windows_append] at hnil
      exact absurd (List.append_eq_nil_iff.mp hnil).2 (by simp [windows])

/-- What comes after the first barrier is placed from `P` on. -/
theorem placedFrom_period (hq : SortedQ q n P E) {sent : List (HotEvent τ π)}
    (hsent : sendLoop q n E (n + 1) 0 = some sent) (endFill : List π) :
    PlacedFrom P (firstWaits q n P ++ (sent ++ (endFill.map .sendmsg ++ [.waitNodes]))) := by
  rw [placedFrom_append, placedFrom_append, waits_firstWaits]
  refine ⟨placedFrom_of_windows windows_firstWaits, ?_, placedFrom_of_windows ?_⟩
  · by_cases hpos : 0 < n
    · have hge := hq.ge 0 hpos
      have hclock : P + ((q 0).miniBatchNum - P) = (q 0).miniBatchNum := by omega
      rw [hclock]
      exact sendLoop_placed hq (Nat.zero_le _) hsent
    · obtain rfl := sendLoop_end hsent hpos
      trivial
  · simp [windows]

/-- **One hot period** returns and places every entry. -/
theorem runHotPeriod_inPlace (startFill endFill : List π) (hotSendQ : HotSendQ τ)
    (hq : SortedQ hotSendQ.sendQ hotSendQ.sendQTail P E) :
    ∃ evs, runHotPeriod startFill endFill hotSendQ P E = some evs ∧ InPlace P hotSendQ evs := by
  obtain ⟨sent, hsent, -⟩ : ∃ evs : List (HotEvent τ π),
      sendLoop hotSendQ.sendQ hotSendQ.sendQTail E (hotSendQ.sendQTail + 1) 0 = some evs ∧ _ :=
    sendLoop_spec hq (Nat.zero_le _) (by omega)
  obtain ⟨hflat, hall⟩ := sendLoop_windows (Nat.zero_le _) hsent
  refine ⟨(startFill.map .sendmsg ++ [.waitNodes]) ++
    (firstWaits hotSendQ.sendQ hotSendQ.sendQTail P ++
      (sent ++ (endFill.map .sendmsg ++ [.waitNodes]))), ?_, ?_⟩
  · unfold runHotPeriod
    simp only [hsent, Option.bind_eq_bind, Option.bind_some, List.append_assoc]
  · have hfirst : windows (startFill.map .sendmsg ++ [.waitNodes] : List (HotEvent τ π)) = [] := by
      simp [windows]
    have hwait : waits (startFill.map .sendmsg ++ [.waitNodes] : List (HotEvent τ π)) = 1 := by
      rw [waits_append, waits_sendmsg]
      rfl
    have hplaced := placedFrom_period hq hsent endFill
    refine ⟨?_, fun w hw => (hall w ?_).1, fun w hw => (hall w ?_).2, ?_⟩
    · simp only [windows_append, windows_sendmsg, windows_firstWaits, List.nil_append]
      simp only [windows, List.nil_append, List.append_nil, hflat, Nat.sub_zero,
        List.range_eq_range']
    · simpa [windows] using hw
    · simpa [windows] using hw
    · intro pre w post hsplit e he
      obtain ⟨pre', rfl, hrest⟩ := exists_append_of_windows hfirst hsplit
      have hclock := hplaced.clock hrest he
      rw [waits_append, hwait]
      omega

end HotPeriod

/-! ### Several nodes -/

section Nodes

open HotPeriod Rounds

variable {ι τ π : Type} [DecidableEq ι]

/-- An event as it takes place: `wait_nodes` enters a barrier and leaves it. -/
def HotEvent.marks : HotEvent τ π → List (Mark (HotEvent τ π))
  | .waitNodes => [.enter, .leave]
  | ev => [.act ev]

/-- A node that runs through a sequence of events. -/
def marks (evs : List (HotEvent τ π)) : List (Mark (HotEvent τ π)) := evs.flatMap HotEvent.marks

theorem marks_append (evs evs' : List (HotEvent τ π)) :
    marks (evs ++ evs') = marks evs ++ marks evs' :=
  List.flatMap_append

theorem entered_marks (evs : List (HotEvent τ π)) : entered (marks evs) = waits evs := by
  induction evs with
  | nil => rfl
  | cons ev evs ih =>
    rw [marks, List.flatMap_cons, entered_append, waits_cons, Nat.add_comm]
    cases ev <;> exact congrArg (· + _) ih

theorem left_marks (evs : List (HotEvent τ π)) : left (marks evs) = waits evs := by
  induction evs with
  | nil => rfl
  | cons ev evs ih =>
    rw [marks, List.flatMap_cons, left_append, waits_cons, Nat.add_comm]
    cases ev <;> exact congrArg (· + _) ih

/-- A node whose hot period `evs` comes after the events `before` has sent an entry. -/
def Sent (before evs : List (HotEvent τ π)) (done : List (Mark (HotEvent τ π)))
    (e : HotTxnEntry τ) : Prop :=
  ∃ pre w post, evs = pre ++ .sendmmsg w :: post ∧ e ∈ w ∧
    marks (before ++ pre ++ [.sendmmsg w]) <+: done

/-- **Hot packets between barriers.** Every hot period with a sorted queue returns and places its
entries.  Let every node run some events, as many barriers on each, then its hot period, and then
more; at any moment at which nobody has left a barrier that somebody has not entered, if a packet is
sent then all packets of smaller mini-batches are sent, on all nodes. -/
theorem hot_packets_in_order (P : ℕ) (E : ι → ℕ) (startFill endFill : ι → List π)
    (hotSendQ : ι → HotSendQ τ)
    (hq : ∀ i, SortedQ (hotSendQ i).sendQ (hotSendQ i).sendQTail P (E i)) :
    ∃ evs : ι → List (HotEvent τ π),
      (∀ i, runHotPeriod (startFill i) (endFill i) (hotSendQ i) P (E i) = some (evs i) ∧
        InPlace P (hotSendQ i) (evs i)) ∧
      ∀ before after : ι → List (HotEvent τ π), (∀ i j, waits (before i) = waits (before j)) →
        ∀ tr, Run (fun i => marks (before i ++ evs i ++ after i)) tr →
          ∀ i j k e, k < (hotSendQ i).sendQTail → Sent (before j) (evs j) (own j tr) e →
            ((hotSendQ i).sendQ k).miniBatchNum < e.miniBatchNum →
            Sent (before i) (evs i) (own i tr) ((hotSendQ i).sendQ k) := by
  choose evs hrun hplace using fun i =>
    runHotPeriod_inPlace (startFill i) (endFill i) (hotSendQ i) (hq i)
  refine ⟨evs, fun i => ⟨hrun i, hplace i⟩,
    fun before after hbefore tr htr i j k e hk hsent hlt => ?_⟩
  obtain ⟨pre', w', post', hevs', he, hdone⟩ := hsent
  have hleft : waits (before j) + waits pre' ≤ left (own j tr) := by
    have hle := left_mono hdone
    rw [left_marks, waits_append, waits_append] at hle
    omega
  have hplace' := (hplace j).place pre' w' post' hevs' e he
  -- the window of the other entry
  obtain ⟨pre, w, post, hevs, hmem⟩ : ∃ pre w post, evs i = pre ++ .sendmmsg w :: post ∧
      (hotSendQ i).sendQ k ∈ w := by
    have hmem : (hotSendQ i).sendQ k ∈ (windows (evs i)).flatten := by
      rw [(hplace i).sent]
      exact List.mem_map_of_mem (List.mem_range.mpr hk)
    obtain ⟨w, hw, hmem⟩ := List.mem_flatten.mp hmem
    obtain ⟨pre, post, hevs⟩ := exists_of_mem_windows hw
    exact ⟨pre, w, post, hevs, hmem⟩
  have hwaits := (hplace i).place pre w post hevs _ hmem
  have hge := (hq i).ge k hk
  refine ⟨pre, w, post, hevs, hmem, ?_⟩
  have hprog : marks (before i ++ evs i ++ after i) =
      marks (before i ++ pre) ++ .act (.sendmmsg w) :: marks (post ++ after i) := by
    rw [hevs]
    simp [marks, HotEvent.marks]
  have hdone := htr.done_of_left (j := j) hprog (by
    rw [entered_marks, waits_append]
    have := hbefore i j
    omega)
  rw [marks_append]
  exact hdone

/-- Node `false` has accelerated one transaction in mini-batch 1, node `true` one in mini-batch
2. -/
def oneEntry (i : Bool) : HotSendQ Unit :=
  ⟨fun _ => ⟨(), if i then 2 else 1, 0, hotTxnPktBytes⟩, 1, batchSizeTgt, hotTxnPktBytes⟩

/-- Both nodes up to the packet of mini-batch 2. -/
def untilSecond : List (Bool × Mark (HotEvent Unit Unit)) :=
  [(false, .enter), (true, .enter), (true, .leave), (false, .leave), (true, .enter),
    (false, .act (.sendmmsg [(oneEntry false).sendQ 0])), (false, .enter), (true, .leave),
    (true, .act (.sendmmsg [(oneEntry true).sendQ 0]))]

theorem hot_packets_in_order_two_nodes :
    (∀ i, SortedQ (oneEntry i).sendQ (oneEntry i).sendQTail 1 3) ∧
    ∃ evs : Bool → List (HotEvent Unit Unit),
      (∀ i, runHotPeriod [] [] (oneEntry i) 1 3 = some (evs i) ∧ InPlace 1 (oneEntry i) (evs i)) ∧
      Run (fun i => marks ([] ++ evs i ++ [])) untilSecond ∧
      Sent [] (evs false) (own false untilSecond) ((oneEntry false).sendQ 0) := by
  have hq : ∀ i, SortedQ (oneEntry i).sendQ (oneEntry i).sendQTail 1 3 := by
    intro i
    refine ⟨fun _ _ _ _ => Nat.le_refl _, fun _ _ => ?_, fun _ _ => ?_⟩ <;>
      cases i <;> simp [oneEntry]
  obtain ⟨evs, hevs, horder⟩ := hot_packets_in_order 1 (fun _ => 3) (fun _ => ([] : List Unit))
    (fun _ => []) oneEntry hq
  have hfalse : evs false = [.waitNodes, .sendmmsg [(oneEntry false).sendQ 0], .waitNodes,
      .waitNodes, .waitNodes] := Option.some.inj ((hevs false).1.symm.trans rfl)
  have htrue : evs true = [.waitNodes, .waitNodes, .sendmmsg [(oneEntry true).sendQ 0], .waitNodes,
      .waitNodes] := Option.some.inj ((hevs true).1.symm.trans rfl)
  have hrun : Run (fun i => marks ([] ++ evs i ++ [])) untilSecond := by
    refine ⟨fun i => ?_, by decide⟩
    cases i
    · rw [hfalse]
      decide
    · rw [htrue]
      decide
  refine ⟨hq, evs, hevs, hrun, horder (fun _ => []) (fun _ => []) (fun _ _ => rfl) untilSecond hrun
    false true 0 ((oneEntry true).sendQ 0) (by decide) ?_ (by decide)⟩
  rw [htrue]
  exact ⟨[.waitNodes, .waitNodes], _, _, rfl, List.mem_singleton_self _, by decide⟩

end Nodes

/-! ### Two nodes -/

namespace Barrier

open Rounds Transition

variable {α : Type}

/-- What a step of the barrier means for the programs: a node enters, or reads the awaited value. -/
def Action.mark : Action → Option (Bool × Mark α)
  | .enter i => some (i, .enter)
  | .observe i => some (i, .leave)
  | _ => none

/-- The trace of a run in which the steps of the barrier and the actions of the nodes alternate in
any way. -/
def trace (as : List (Action ⊕ Bool × α)) : List (Bool × Mark α) :=
  as.filterMap (Sum.elim Action.mark fun e => some (e.1, .act e.2))

theorem trace_inl (a : Action) (as : List (Action ⊕ Bool × α)) :
    trace (.inl a :: as) = a.mark.toList ++ trace as := by
  cases h : (a.mark : Option (Bool × Mark α)) <;> simp [trace, h]

theorem counts_of_step {a : Action} {s s' : State} (hstep : step s a = some s') (i : Bool) :
    (s' i).entered = (s i).entered + entered (own i (a.mark.toList : List (Bool × Mark α))) ∧
      (s' i).left = (s i).left + left (own i (a.mark.toList : List (Bool × Mark α))) := by
  obtain ⟨j, rfl, -, rfl⟩ | ⟨j, m, rest, rfl, -, rfl⟩ | ⟨j, rfl, -, -, rfl⟩ | ⟨j, rfl, -, rfl⟩ :=
    step_cases hstep
  all_goals cases i <;> cases j <;> exact ⟨rfl, rfl⟩

/-- The counters of the barrier count the marks. -/
theorem counts_of_run {as : List (Action ⊕ Bool × α)} {s s' : State}
    (hrun : run step s (as.filterMap Sum.getLeft?) = some s') (i : Bool) :
    (s' i).entered = (s i).entered + entered (own i (trace as)) ∧
      (s' i).left = (s i).left + left (own i (trace as)) := by
  induction as generalizing s with
  | nil =>
    obtain rfl := Option.some.inj hrun
    exact ⟨rfl, rfl⟩
  | cons a as ih =>
    cases a with
    | inr e =>
      have htrace : trace (.inr e :: as) = (e.1, .act e.2) :: trace as := rfl
      obtain ⟨he, hl⟩ := ih hrun
      rw [htrace, own_cons]
      split_ifs <;> exact ⟨he, hl⟩
    | inl a =>
      obtain ⟨s₁, hstep, hrun⟩ := run_cons_eq_some.mp hrun
      obtain ⟨he, hl⟩ := ih hrun
      obtain ⟨he₁, hl₁⟩ := counts_of_step hstep i
      rw [he, hl, he₁, hl₁, trace_inl, own_append, entered_append, left_append, Nat.add_assoc,
        Nat.add_assoc]
      exact ⟨rfl, rfl⟩

/-- **The barrier of two nodes is safe** in the sense of `Rounds.Run`. -/
theorem run_of_barrier {as : List (Action ⊕ Bool × α)} {s : State} {prog : Bool → List (Mark α)}
    (hrun : run step init (as.filterMap Sum.getLeft?) = some s)
    (hprog : ∀ i, own i (trace as) <+: prog i) : Run prog (trace as) := by
  have hinv : Inv s := run_invariant (fun _ _ _ => step_inv) init_inv hrun
  have hentered : ∀ i, (s i).entered = entered (own i (trace as)) := fun i =>
    (counts_of_run hrun i).1.trans (Nat.zero_add _)
  have hleft : ∀ i, (s i).left = left (own i (trace as)) := fun i =>
    (counts_of_run hrun i).2.trans (Nat.zero_add _)
  refine ⟨hprog, fun i j => ?_⟩
  rw [← hleft, ← hentered]
  by_cases hij : j = i
  · subst hij
    have he := (hinv j).entered_eq
    split_ifs at he <;> omega
  · obtain rfl : j = !i := Bool.eq_not_of_ne hij
    exact (hinv i).left_le_peer

end Barrier

end P4db
