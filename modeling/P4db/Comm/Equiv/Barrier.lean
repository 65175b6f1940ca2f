import P4db.Comm.Barrier

/-!
# What the barrier between two nodes guarantees

The counter of a node is the number of messages delivered to it less the number of barriers it has
completed, and a node that has read the awaited value has been delivered the message of that barrier
(`NodeInv`).  Every step keeps this for both nodes (`step_inv`).

* `left_le_entered`: no node leaves a barrier the peer has not entered, in every interleaving.
* `exitOk_iff`: the exit condition of a node holds from the delivery of the awaited message on, and
  no state is a deadlock, exactly in the runs that never deliver a message to a node that still
  waits with the awaited message already counted.  A peer that reads its own counter first can run
  ahead into its next barrier and send such a message; the counter then stands at 2 and the loop
  never ends.
-/

namespace P4db.Barrier

open Transition

/-! ### The invariant -/

/-- What holds of a node `n` with the peer `p` at every moment. -/
structure NodeInv (n p : Node) : Prop where
  completed_eq : n.completed = if n.phase = .leaving then n.left - 1 else n.left
  entered_eq : n.entered = if n.phase = .waiting then n.left + 1 else n.left
  left_le : n.left ≤ n.delivered
  left_pos : n.phase = .leaving → 0 < n.left
  wire : n.delivered + n.inbox.length = p.entered
  received_eq : n.received = UInt32.ofNat (n.delivered - n.completed)

/-- The invariant of the system. -/
def Inv (s : State) : Prop := ∀ i, NodeInv (s i) (s !i)

theorem init_inv : Inv init := fun _ => ⟨rfl, rfl, Nat.le_refl _, nofun, rfl, rfl⟩

variable {s s' : State} {a : Action}

namespace NodeInv

variable {n p : Node}

theorem left_le_peer (h : NodeInv n p) : n.left ≤ p.entered := by
  have := h.wire
  have := h.left_le
  omega

theorem entered_le (h : NodeInv n p) : n.entered ≤ n.left + 1 := by
  have := h.entered_eq
  split_ifs at this <;> omega

/-- At most two messages are delivered and not yet accounted for, so the counter never wraps. -/
theorem delivered_le (h : NodeInv n p) (h' : NodeInv p n) : n.delivered ≤ n.completed + 2 := by
  have hwire := h.wire
  have hp := h'.entered_le
  have hl := h'.left_le_peer
  -- the peer is at most one barrier ahead of what this node has entered
  have hn := h.entered_eq
  have hc := h.completed_eq
  have hpos := h.left_pos
  cases hph : n.phase <;> simp only [hph, reduceCtorEq, ↓reduceIte] at hn hc hpos <;> omega

theorem received_eq_iff (h : NodeInv n p) (h' : NodeInv p n) :
    n.received = numNodes - 1 ↔ n.delivered = n.completed + 1 := by
  have hle := h.delivered_le h'
  have hl := h.left_le
  have hc := h.completed_eq
  rw [h.received_eq]
  have hcases : n.delivered - n.completed = 0 ∨ n.delivered - n.completed = 1 ∨
      n.delivered - n.completed = 2 := by omega
  rcases hcases with h0 | h0 | h0
  · rw [h0]
    exact ⟨fun h => absurd h (by decide), fun h => by omega⟩
  · rw [h0]
    refine ⟨fun _ => by omega, fun _ => by decide⟩
  · rw [h0]
    exact ⟨fun h => absurd h (by decide), fun h => by omega⟩

/-- The peer enters the condition through the number of its barriers only. -/
theorem congr_peer {p' : Node} (h : NodeInv n p) (hp : p'.entered = p.entered) : NodeInv n p' :=
  { h with wire := hp ▸ h.wire }

theorem enter (h : NodeInv n p) (hout : n.phase = .outside) : NodeInv n.enter p := by
  have hc := h.completed_eq
  have he := h.entered_eq
  simp only [hout, reduceCtorEq, ↓reduceIte] at hc he
  exact { h with
    completed_eq := hc
    entered_eq := congrArg (· + 1) he
    left_pos := nofun }

theorem push (h : NodeInv n p) (m : BarrierMsg) :
    NodeInv (n.push m) p.enter := by
  have hwire : n.delivered + (n.inbox ++ [m]).length = p.entered + 1 := by
    have := h.wire
    rw [List.length_append, List.length_singleton]
    omega
  exact { h with wire := hwire }

theorem handle (h : NodeInv n p) {m : BarrierMsg} {rest : List BarrierMsg}
    (hin : n.inbox = m :: rest) : NodeInv (n.handle rest) p := by
  have hl := h.left_le
  have hc : n.completed ≤ n.left := by
    have := h.completed_eq
    split_ifs at this <;> omega
  refine { h with left_le := Nat.le_succ_of_le hl, wire := ?_, received_eq := ?_ }
  · have := h.wire
    rw [hin, List.length_cons] at this
    show n.delivered + 1 + rest.length = p.entered
    omega
  · show n.received + 1 = UInt32.ofNat (n.delivered + 1 - n.completed)
    have hsub : n.delivered + 1 - n.completed = n.delivered - n.completed + 1 := by omega
    rw [hsub, UInt32.ofNat_add, h.received_eq]
    rfl

theorem observe (h : NodeInv n p) (h' : NodeInv p n) (hwait : n.phase = .waiting)
    (hrec : n.received = numNodes - 1) : NodeInv n.observe p := by
  have hd := (h.received_eq_iff h').mp hrec
  have hc := h.completed_eq
  have he := h.entered_eq
  simp only [hwait, reduceCtorEq, ↓reduceIte] at hc he
  exact { h with
    completed_eq := hc
    entered_eq := he
    left_le := by show n.left + 1 ≤ n.delivered; omega
    left_pos := fun _ => Nat.succ_pos _ }

theorem finish (h : NodeInv n p) (hleave : n.phase = .leaving) : NodeInv n.finish p := by
  have hc := h.completed_eq
  have he := h.entered_eq
  have hpos := h.left_pos hleave
  have hl := h.left_le
  simp only [hleave, reduceCtorEq, ↓reduceIte] at hc he
  refine { h with completed_eq := ?_, entered_eq := he, left_pos := nofun, received_eq := ?_ }
  · show n.completed + 1 = n.left
    omega
  · show n.received - 1 = UInt32.ofNat (n.delivered - (n.completed + 1))
    have hsub : n.delivered - n.completed = n.delivered - (n.completed + 1) + 1 := by omega
    rw [h.received_eq, hsub, UInt32.ofNat_add]
    exact UInt32.add_sub_cancel _ _

end NodeInv

/-! ### Steps and runs -/

/-- What a step can do: which node moves, under which guard, to which state. -/
theorem step_cases (h : step s a = some s') :
    (∃ i, a = .enter i ∧ (s i).phase = .outside ∧
      s' = Function.update (Function.update s i (s i).enter) (!i)
        ((s !i).push ⟨i, (s i).idCtr⟩)) ∨
    (∃ i m rest, a = .deliver i ∧ (s i).inbox = m :: rest ∧
      s' = Function.update s i ((s i).handle rest)) ∨
    (∃ i, a = .observe i ∧ (s i).phase = .waiting ∧ (s i).received = numNodes - 1 ∧
      s' = Function.update s i (s i).observe) ∨
    (∃ i, a = .finish i ∧ (s i).phase = .leaving ∧
      s' = Function.update s i (s i).finish) := by
  cases a with
  | enter i =>
    simp only [step] at h
    split_ifs at h with hg
    exact .inl ⟨i, rfl, hg, (Option.some.inj h).symm⟩
  | deliver i =>
    simp only [step] at h
    cases hin : (s i).inbox with
    | nil => rw [hin] at h; cases h
    | cons m rest =>
      rw [hin] at h
      exact .inr (.inl ⟨i, m, rest, rfl, hin, (Option.some.inj h).symm⟩)
  | observe i =>
    simp only [step] at h
    split_ifs at h with hg
    exact .inr (.inr (.inl ⟨i, rfl, hg.1, hg.2, (Option.some.inj h).symm⟩))
  | finish i =>
    simp only [step] at h
    split_ifs at h with hg
    exact .inr (.inr (.inr ⟨i, rfl, hg, (Option.some.inj h).symm⟩))

/-- A node may be replaced by one that fits its peer. -/
theorem Inv.update (h : Inv s) (i : Bool) {n : Node} (hn : NodeInv n (s !i))
    (he : n.entered = (s i).entered) : Inv (Function.update s i n) := by
  intro j
  by_cases hj : j = i
  · subst hj
    rw [Function.update_self, Function.update_of_ne (by simp)]
    exact hn
  · obtain rfl : j = !i := Bool.eq_not_of_ne hj
    rw [Function.update_of_ne hj, Bool.not_not, Function.update_self]
    have := h !i
    rw [Bool.not_not] at this
    exact this.congr_peer he

theorem step_inv (h : Inv s) (hstep : step s a = some s') : Inv s' := by
  obtain ⟨i, -, hout, rfl⟩ | ⟨i, m, rest, -, hin, rfl⟩ | ⟨i, -, hwait, hrec, rfl⟩ |
    ⟨i, -, hleave, rfl⟩ := step_cases hstep
  · have hp : NodeInv (s !i) (s i) := by simpa using h !i
    intro j
    by_cases hj : j = i
    · subst hj
      rw [Function.update_of_ne (by simp), Function.update_self,
        Function.update_self]
      exact ((h j).enter hout).congr_peer rfl
    · obtain rfl : j = !i := Bool.eq_not_of_ne hj
      rw [Function.update_self, Bool.not_not, Function.update_of_ne (by simp),
        Function.update_self]
      exact hp.push _
  · exact h.update i ((h i).handle hin) rfl
  · have hp : NodeInv (s !i) (s i) := by simpa using h !i
    exact h.update i ((h i).observe hp hwait hrec) rfl
  · exact h.update i ((h i).finish hleave) rfl

theorem Inv.peer (h : Inv s) (i : Bool) : NodeInv (s !i) (s i) := by
  have := h !i
  rwa [Bool.not_not] at this

theorem entered_le_completed {n p : Node} (h : NodeInv n p) : n.entered ≤ n.completed + 1 := by
  have hc := h.completed_eq
  have he := h.entered_eq
  cases hph : n.phase <;> simp only [hph, reduceCtorEq, ↓reduceIte] at hc he <;> omega

theorem completed_le_left {n p : Node} (h : NodeInv n p) : n.completed ≤ n.left := by
  have := h.completed_eq
  split_ifs at this <;> omega

/-- **Safety.** In every reachable state a node has left at most as many barriers as the peer has
entered, and the completed barriers differ by at most one. -/
theorem left_le_entered (as : List Action) (s : State) (hrun : run step init as = some s)
    (i : Bool) : (s i).left ≤ (s !i).entered ∧ (s i).completed ≤ (s !i).completed + 1 := by
  have hinv : Inv s := run_invariant (fun _ _ _ => step_inv) init_inv hrun
  have hle := (hinv i).left_le_peer
  refine ⟨hle, ?_⟩
  calc (s i).completed ≤ (s i).left := completed_le_left (hinv i)
    _ ≤ (s !i).entered := hle
    _ ≤ (s !i).completed + 1 := entered_le_completed (hinv.peer i)

theorem left_le_entered_one_round :
    ∃ s, run step init [.enter false, .enter true, .deliver true, .observe true] = some s ∧
      (s true).left ≤ (s !true).entered ∧ (s true).completed ≤ (s !true).completed + 1 :=
  ⟨_, rfl, left_le_entered [.enter false, .enter true, .deliver true, .observe true] _ rfl true⟩

/-! ### Progress -/

/-- A node that waits in its `k`-th barrier and has been delivered the peer's `k`-th message may
leave. -/
def ExitOk (s : State) : Prop :=
  ∀ i, (s i).phase = .waiting → (s i).entered ≤ (s i).delivered → (s i).received = numNodes - 1

/-- No step is enabled. -/
def Deadlock (s : State) : Prop := ∀ a, step s a = none

/-- The step does not deliver a message to a node that waits and could leave. -/
def Timely (s : State) (a : Action) : Prop :=
  ∀ i, a = .deliver i → (s i).phase = .waiting → (s i).received ≠ numNodes - 1

/-- `ExitOk` in terms of the history: a waiting node is at most one message ahead. -/
def Node.OnTime (n : Node) : Prop := n.phase = .waiting → n.delivered ≤ n.completed + 1

theorem exitOk_iff_onTime (h : Inv s) : ExitOk s ↔ ∀ i, (s i).OnTime := by
  refine forall_congr' fun i => forall_congr' fun hwait => ?_
  rw [(h i).received_eq_iff (h.peer i)]
  have hc := (h i).completed_eq
  have he := (h i).entered_eq
  simp only [hwait, reduceCtorEq, ↓reduceIte] at hc he
  omega

theorem exitOk_step_iff (h : Inv s) (hok : ExitOk s) (hstep : step s a = some s') :
    ExitOk s' ↔ Timely s a := by
  rw [exitOk_iff_onTime (step_inv h hstep)]
  rw [exitOk_iff_onTime h] at hok
  obtain ⟨i, rfl, hout, rfl⟩ | ⟨i, m, rest, rfl, hin, rfl⟩ | ⟨i, rfl, hwait, hrec, rfl⟩ |
    ⟨i, rfl, hleave, rfl⟩ := step_cases hstep
  · refine iff_of_true ?_ nofun
    -- the peer has entered at most one barrier more than this node had left
    have hd : (s i).delivered ≤ (s i).completed + 1 := by
      have hwire := (h i).wire
      have hp := (h.peer i).entered_le
      have hl := (h.peer i).left_le_peer
      have he := (h i).entered_eq
      have hc := (h i).completed_eq
      simp only [hout, reduceCtorEq, ↓reduceIte] at he hc
      omega
    rw [Function.forall_update_iff _ fun _ n => Node.OnTime n]
    refine ⟨hok !i, fun j hj => ?_⟩
    obtain rfl : j = i := by simpa using Bool.eq_not_of_ne hj
    rw [Function.update_self]
    exact fun _ => hd
  · rw [Function.forall_update_iff _ fun _ n => Node.OnTime n]
    constructor
    · rintro ⟨hi, -⟩ j hj hwait hrec
      obtain rfl : i = j := Action.deliver.inj hj
      have hd := ((h i).received_eq_iff (h.peer i)).mp hrec
      have : (s i).delivered + 1 ≤ (s i).completed + 1 := hi hwait
      omega
    · intro ht
      refine ⟨fun hwait => ?_, fun j _ => hok j⟩
      have hrec := ht i rfl hwait
      rw [ne_eq, (h i).received_eq_iff (h.peer i)] at hrec
      have hle := hok i hwait
      show (s i).delivered + 1 ≤ (s i).completed + 1
      omega
  · refine iff_of_true ?_ nofun
    rw [Function.forall_update_iff _ fun _ n => Node.OnTime n]
    exact ⟨nofun, fun j _ => hok j⟩
  · refine iff_of_true ?_ nofun
    rw [Function.forall_update_iff _ fun _ n => Node.OnTime n]
    exact ⟨nofun, fun j _ => hok j⟩

/-- A node that waits for the peer's message, with nothing on the wire, has entered a later barrier
than the peer. -/
theorem peer_behind (h : Inv s) (hok : ExitOk s) (hdead : Deadlock s) (i : Bool) :
    (s !i).entered < (s i).entered := by
  have hwait : (s i).phase = .waiting := by
    cases hph : (s i).phase with
    | outside => exact absurd (hdead (.enter i)) (by simp [step, hph])
    | waiting => rfl
    | leaving => exact absurd (hdead (.finish i)) (by simp [step, hph])
  have hin : (s i).inbox = [] := by
    cases hin : (s i).inbox with
    | nil => rfl
    | cons m rest => exact absurd (hdead (.deliver i)) (by simp [step, hin])
  have hrec : (s i).received ≠ numNodes - 1 := by
    intro hrec
    exact absurd (hdead (.observe i)) (by simp [step, hwait, hrec])
  have hwire := (h i).wire
  rw [hin, List.length_nil] at hwire
  by_contra hle
  exact hrec (hok i hwait (by omega))

theorem not_deadlock (h : Inv s) (hok : ExitOk s) : ¬Deadlock s := by
  intro hdead
  have h₁ := peer_behind h hok hdead false
  have h₂ := peer_behind h hok hdead true
  simp only [Bool.not_false, Bool.not_true] at h₁ h₂
  omega

/-- **Progress.** In every state of a run the exit conditions hold when they should and some step is
enabled, exactly when the run delivers no message to a node that waits with the awaited message
already counted. -/
theorem exitOk_iff (as : List Action) :
    OnRun step (fun s => ExitOk s ∧ ¬Deadlock s) init as ↔ AlongRun step Timely init as := by
  have hok : ExitOk init := fun _ hwait => nomatch hwait
  refine onRun_iff_alongRun (fun _ _ _ => step_inv) ?_ init_inv ⟨hok, not_deadlock init_inv hok⟩ as
  intro s a s' hinv hQ hstep
  rw [← exitOk_step_iff hinv hQ.1 hstep]
  exact ⟨And.left, fun h => ⟨h, not_deadlock (step_inv hinv hstep) h⟩⟩

/-- Node 1 completes the first barrier and enters the second before node 0 reads its counter. -/
theorem deadlock_of_peer_ahead :
    ∃ s, run step init [.enter false, .enter true, .deliver true, .observe true, .finish true,
        .enter true, .deliver false, .deliver false] = some s ∧
      (s false).phase = .waiting ∧ (s false).entered = 1 ∧ (s false).delivered = 2 ∧
      ¬ExitOk s ∧ Deadlock s := by
  refine ⟨_, rfl, rfl, rfl, rfl, ?_, ?_⟩
  · intro hok
    exact absurd (hok false rfl (by decide)) (by decide)
  · rintro (i | i | i | i) <;> cases i <;> rfl

end P4db.Barrier
