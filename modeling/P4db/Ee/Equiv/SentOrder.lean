import P4db.Ee.Equiv.Discipline
import P4db.Ee.Equiv.HotPackets

/-!
# The order in which packets are sent

A packet is sent when the clock of its node shows a number that depends only on its batch and on
its place in the hot period (`Sending.clock`).  Nobody leaves a barrier that the peer has not
entered, so the clocks of both nodes show the same, up to one barrier, and packets are sent in the
order of their clocks: `packets_in_order`.

* `HotStep`: what a step does to the hot period of a node, to its queue and to what it has sent.
* `SentOk`: the windows are sent in the order of the clocks.
* `FillsOk`: a node sends the packets that its hot period begins with before the first barrier, and
  those that it ends with before the last one.
-/

namespace P4db

namespace HotPeriod

variable {τ π : Type} {q : ℕ → HotTxnEntry τ} {n P E : ℕ}

/-! ### Packets outside the windows -/

/-- The packets that are sent alone, each with the number of the barriers before it, from `k` on. -/
def alone (k : ℕ) : List (HotEvent τ π) → List (ℕ × π)
  | [] => []
  | .waitNodes :: evs => alone (k + 1) evs
  | .sendmsg pkt :: evs => (k, pkt) :: alone k evs
  | .sendmmsg _ :: evs => alone k evs

theorem alone_append (k : ℕ) (evs evs' : List (HotEvent τ π)) :
    alone k (evs ++ evs') = alone k evs ++ alone (k + waits evs) evs' := by
  induction evs generalizing k with
  | nil => rfl
  | cons ev evs ih =>
    cases ev with
    | waitNodes =>
      have hwaits : k + waits (.waitNodes :: evs) = k + 1 + waits evs := by
        rw [waits_cons, HotEvent.isWait, if_pos rfl]
        omega
      rw [hwaits]
      exact ih (k + 1)
    | sendmsg pkt => exact congrArg (List.cons _) (ih k)
    | sendmmsg w => exact ih k

theorem alone_sendmsg (k : ℕ) (pkts : List π) :
    alone k (pkts.map .sendmsg : List (HotEvent τ π)) = pkts.map (Prod.mk k) := by
  induction pkts with
  | nil => rfl
  | cons pkt pkts ih => exact congrArg (List.cons _) ih

theorem alone_eq_nil (k : ℕ) {evs : List (HotEvent τ π)} (h : ∀ pkt, .sendmsg pkt ∉ evs) :
    alone k evs = [] := by
  induction evs generalizing k with
  | nil => rfl
  | cons ev evs ih =>
    have hrest := fun k => ih k fun pkt hmem => h pkt (List.mem_cons_of_mem _ hmem)
    cases ev with
    | waitNodes => exact hrest (k + 1)
    | sendmsg pkt => exact absurd List.mem_cons_self (h pkt)
    | sendmmsg w => exact hrest k

theorem sendmsg_notMem_waitLoop (lo hi : ℕ) (pkt : π) :
    .sendmsg pkt ∉ (waitLoop lo hi : List (HotEvent τ π)) := by
  simp [waitLoop]

theorem sendmsg_notMem_sendLoop {fuel ws : ℕ} {evs : List (HotEvent τ π)}
    (hrun : sendLoop q n E fuel ws = some evs) (pkt : π) : .sendmsg pkt ∉ evs := by
  induction fuel generalizing ws evs with
  | zero => cases hrun
  | succ fuel ih =>
    by_cases hlt : ws < n
    · obtain ⟨qP, rest, -, -, -, -, hrest, rfl⟩ := sendLoop_cases hrun hlt
      have hwaits : HotEvent.sendmsg pkt ∉ (windowWaits q n E ws qP : List (HotEvent τ π)) := by
        unfold windowWaits
        split_ifs
        · exact sendmsg_notMem_waitLoop _ _ pkt
        · exact sendmsg_notMem_waitLoop _ _ pkt
        · exact List.not_mem_nil
      simp only [List.mem_cons, List.mem_append, reduceCtorEq, false_or, not_or]
      exact ⟨hwaits, ih hrest⟩
    · obtain rfl := sendLoop_end hrun hlt
      exact List.not_mem_nil

/-- The packets that load the switch come before the first barrier, and those that read it back
before the last one only. -/
theorem alone_runHotPeriod {startFill endFill : List π} {hotSendQ : HotSendQ τ}
    {evs : List (HotEvent τ π)} (hrun : runHotPeriod startFill endFill hotSendQ P E = some evs) :
    alone 0 evs = startFill.map (Prod.mk 0) ++ endFill.map (Prod.mk (waits evs - 1)) := by
  unfold runHotPeriod at hrun
  obtain ⟨sent, hsent, heq⟩ := Option.bind_eq_some_iff.mp hrun
  set mid : List (HotEvent τ π) :=
    .waitNodes :: (firstWaits hotSendQ.sendQ hotSendQ.sendQTail P ++ sent) with hmid
  have hevs : evs = startFill.map .sendmsg ++ (mid ++ (endFill.map .sendmsg ++ [.waitNodes])) := by
    rw [← Option.some.inj heq, hmid]
    simp
  -- between the first barrier and the last packets there are barriers and windows only
  have halone : ∀ k, alone k mid = [] := by
    refine fun k => alone_eq_nil k fun pkt hmem => ?_
    rcases List.mem_cons.mp hmem with heq | hmem
    · cases heq
    rcases List.mem_append.mp hmem with hmem | hmem
    · unfold firstWaits at hmem
      split_ifs at hmem
      · exact sendmsg_notMem_waitLoop _ _ pkt hmem
      · cases hmem
    · exact sendmsg_notMem_sendLoop hsent pkt hmem
  have hone : waits [(HotEvent.waitNodes : HotEvent τ π)] = 1 := rfl
  have hwaits : waits evs - 1 = waits mid := by
    rw [hevs]
    simp only [waits_append, waits_sendmsg, hone]
    omega
  have hlast : ∀ k, alone k [(HotEvent.waitNodes : HotEvent τ π)] = [] := fun _ => rfl
  rw [hwaits, hevs]
  simp only [alone_append, alone_sendmsg, halone, hlast, waits_sendmsg, Nat.zero_add,
    List.nil_append, List.append_nil]

end HotPeriod

/-- The transactions whose packets are sent. -/
def HotEvent.txns {τ π : Type} : HotEvent τ π → List τ
  | .sendmmsg w => w.map HotTxnEntry.txn
  | _ => []

namespace Lockstep

open Transition

variable {n : Bool → UInt32} {π : Type} {c : Config} {s s' : State n π} {a : Action n π}

/-! ### Steps of a hot period -/

/-- What a node has sent. -/
def State.sentBy (s : State n π) (i : Bool) : List (Sending π) := s.sent.filter fun x => x.node = i

/-- The transactions with a slot in the queue of a node for a batch, in order. -/
def State.slotsIn (s : State n π) (i : Bool) (batch : ℕ) : List Attempt :=
  (s.sys.slots.filter fun e => e.1.worker.nid = i.toNat ∧ e.2.1 = batch).map Prod.fst

theorem slotsIn_congr (h : s'.sys.slots = s.sys.slots) : s'.slotsIn = s.slotsIn := by
  funext i b
  rw [State.slotsIn, h]
  rfl

/-- What a step does to the hot period of a node, to its queue and to what it has sent. -/
inductive HotStep (s : State n π) (a : Action n π) (s' : State n π) (i : Bool) : Prop
  | stays (hbatch : s'.sys.batch i.toNat = s.sys.batch i.toNat) (hhot : s'.hot i = s.hot i)
      (hsent : s'.sentBy i = s.sentBy i) (hslots : s'.slotsIn i = s.slotsIn i)
      (hqueue : s'.sys.hotSendQ i.toNat = s.sys.hotSendQ i.toNat)
  | claims {t : Fin (n i).toNat} {mb q} (hbatch : s'.sys.batch i.toNat = s.sys.batch i.toNat)
      (hnone : s.hot i = none) (hhot : s'.hot i = none) (hsent : s'.sentBy i = s.sentBy i)
      (hclaim : System.Claims s.sys s'.sys (worker i t) mb q)
  | begins {t startFill endFill evs} (ha : a = .runHotPeriod i t startFill endFill)
      (hend : s.AtBatchEnd i t) (hbatch : s.sys.batch i.toNat = s.batchNum i t)
      (hrun : HotPeriod.runHotPeriod startFill endFill (s.sys.hotSendQ i.toNat) (s.pastMbNum i)
        (s.round i t) = some evs)
      (hnone : s.hot i = none) (hhot : s'.hot i = some ⟨s.round i t, [], evs⟩)
      (hsent : s'.sentBy i = s.sentBy i) (hsys : s'.sys = s.sys)
  | event {mb done ev todo} (hhot : s.hot i = some ⟨mb, done, ev :: todo⟩)
      (hhot' : s'.hot i = some ⟨mb, done ++ [ev], todo⟩)
      (hsent : s'.sentBy i =
        s.sentBy i ++ if ev.isWait then [] else [⟨i, s.sys.batch i.toNat, done, ev⟩])
      (hsys : s'.sys = s.sys)
  | ends {mb done} (hhot : s.hot i = some ⟨mb, done, []⟩) (hhot' : s'.hot i = none)
      (hbatch : s'.sys.batch i.toNat = s.sys.batch i.toNat + 1)
      (hsent : s'.sentBy i = s.sentBy i) (hslots : s'.slotsIn i = s.slotsIn i)
      (hqueue : (s'.sys.hotSendQ i.toNat).sendQTail = 0)

/-- A slot is added to the queue of the node and the batch that is filled. -/
theorem slotsIn_claim {sys : System} {i : Bool} {u : Fin (n i).toNat} {mb : ℕ}
    {q : HotSendQ Attempt} (hclaim : System.Claims s.sys sys (worker i u) mb q)
    (hsys : s'.sys = sys) (j : Bool) (b : ℕ) : s'.slotsIn j b = s.slotsIn j b ++
      if j = i ∧ b = s.sys.batch i.toNat then [s.sys.attempt (worker i u)] else [] := by
  simp only [State.slotsIn, hsys, hclaim.slots, List.filter_append, List.map_append]
  congr 1
  have hnode : (s.sys.attempt (worker i u)).worker.nid = j.toNat ↔ j = i :=
    ⟨fun heq => (toNat_injective heq).symm, fun heq => congrArg Bool.toNat heq.symm⟩
  have hbatch : s.sys.batch (worker i u).nid = b ↔ b = s.sys.batch i.toNat := eq_comm
  simp only [List.filter_cons, List.filter_nil, hnode, hbatch, decide_eq_true_eq]
  split_ifs <;> rfl

/-- A step of the executor.  Only threads that are in a mini-batch claim slots. -/
theorem Inv.hotStep_of_system (h : Inv s) {sys : System} {b : System.Action}
    (hsys : s.sys.step c b = some sys) (hb : ∀ m, b ≠ .doneSending m) (i : Bool) :
    HotStep s a { s with sys := sys } i := by
  have hbatch : sys.batch i.toNat = s.sys.batch i.toNat := congrFun (batch_of_step hsys hb) _
  rcases System.queues_of_step hsys hb with ⟨hq, hslots⟩ | ⟨w, mb, q, hclaim⟩
  · exact .stays hbatch rfl rfl (congrFun (slotsIn_congr hslots) i) (congrFun hq _)
  · obtain ⟨j, u, rfl, -, -⟩ := h.claims hclaim
    by_cases hi : i = j
    · subst hi
      have hnone : s.hot i = none := by
        by_contra hhot
        have hidle : (s.sys.threads (worker i u)).phase = .idle := h.idle_of_hot hhot u
        rw [hclaim.phase] at hidle
        cases hidle
      exact .claims hbatch hnone hnone rfl hclaim
    · have hne : i.toNat ≠ (worker j u).nid := fun heq => hi (toNat_injective heq)
      refine .stays hbatch rfl rfl ?_ ?_
      · funext b
        rw [slotsIn_claim hclaim rfl, if_neg fun hc => hi hc.1, List.append_nil]
      · show sys.hotSendQ i.toNat = _
        rw [hclaim.hotSendQ, Function.update_of_ne hne]

theorem Move.hotStep (hmove : Move c s a s') (h : Inv s) (i : Bool) : HotStep s a s' i := by
  cases hmove with
  | call hmini hsys => exact h.hotStep_of_system hsys nofun i
  | leftover hpc hsys => exact h.hotStep_of_system hsys nofun i
  | exec hinner hsys =>
    refine h.hotStep_of_system hsys ?_ i
    rintro m rfl
    cases hinner
  | @runHotPeriod j t startFill endFill evs ht hidle hend hbatch hnone hrun =>
    by_cases hi : i = j
    · subst hi
      exact .begins rfl hend hbatch hrun hnone (Function.update_self _ _ _) rfl rfl
    · exact .stays rfl (Function.update_of_ne hi _ _) rfl rfl rfl
  | @waitNodes j mb done todo nodes hhot hnodes =>
    by_cases hi : i = j
    · subst hi
      exact .event hhot (Function.update_self _ _ _) (List.append_nil _).symm rfl
    · exact .stays rfl (Function.update_of_ne hi _ _) rfl rfl rfl
  | @send j mb done ev todo hhot hev hphase =>
    by_cases hi : i = j
    · subst hi
      refine .event hhot (Function.update_self _ _ _) ?_ rfl
      have hwait : ev.isWait = false := by
        cases ev with
        | waitNodes => exact absurd rfl hev
        | sendmsg | sendmmsg => rfl
      simp [State.sentBy, hwait]
    · refine .stays rfl (Function.update_of_ne hi _ _) ?_ rfl rfl
      simp [State.sentBy, Ne.symm hi]
  | @doneSending j mb done sys hhot hphase hsys =>
    obtain ⟨hq, hb, hslots⟩ := System.doneSending_of_step hsys
    by_cases hi : i = j
    · subst hi
      refine .ends hhot (Function.update_self _ _ _) ?_ rfl (congrFun (slotsIn_congr hslots) i) ?_
      · exact (congrFun hb _).trans (Function.update_self _ _ _)
      · exact congrArg HotSendQ.sendQTail ((congrFun hq _).trans (Function.update_self _ _ _))
    · have hne : i.toNat ≠ j.toNat := fun heq => hi (toNat_injective heq)
      refine .stays ?_ (Function.update_of_ne hi _ _) rfl (congrFun (slotsIn_congr hslots) i) ?_
      · exact (congrFun hb _).trans (Function.update_of_ne hne _ _)
      · exact (congrFun hq _).trans (Function.update_of_ne hne _ _)
  | _ => exact .stays rfl rfl rfl rfl rfl

/-- A step sends nothing, or it is the next event of a hot period. -/
theorem Move.sent (hmove : Move c s a s') : s'.sent = s.sent ∨
    ∃ i mb done ev todo, s.hot i = some ⟨mb, done, ev :: todo⟩ ∧ (s.nodes i).phase = .outside ∧
      s'.nodes = s.nodes ∧ s'.sys = s.sys ∧
      s'.sent = s.sent ++ [⟨i, s.sys.batch i.toNat, done, ev⟩] := by
  cases hmove with
  | send hhot hev hphase => exact .inr ⟨_, _, _, _, _, hhot, hphase, rfl, rfl, rfl⟩
  | _ => exact .inl rfl

/-! ### The clock in a hot period -/

/-- How many barriers a node has entered when the hot period of the batch begins. -/
def periodAt (batch : ℕ) : ℕ := roundsPerBatch * (batch + 1) + 2 + waitsPerPeriod * batch

/-- How many barriers of the hot period come before the packets. -/
def Sending.stage (x : Sending π) : ℕ := waits x.done

/-- How many barriers the node has entered when it sends the packets. -/
def Sending.clock (x : Sending π) : ℕ := periodAt x.batch + x.stage

/-- Before a node sends packets of its hot period it has entered all rounds of the batch. -/
theorem NodeOk.entered_of_hot {k : UInt32} {v : View k π} (h : NodeOk v) (hpos : 0 < k.toNat)
    {r : HotRun π} (hhot : v.hot = some r) : v.node.entered = periodAt v.batch + waits r.done := by
  -- the leader has left all rounds of the batch, so that none of them is going on
  set l : Fin k.toNat := ⟨0, hpos⟩
  obtain ⟨hbatch, hout, -, hround⟩ := h.hot_leader hhot l rfl
  have hentered : v.entered l = v.round l := View.entered_of_outside hout
  have hbegun : v.localBarrier.begun ≤ v.entered l := RBarrier.begun_le_entered h.locals l
  have hended : v.round l ≤ v.localBarrier.ended := RBarrier.round_le_ended h.locals l
  have hle := (RBarrier.ended_le_begun h.locals).1
  have hup := h.up_of_entered (t := l) (by omega)
  have hclock := h.clock
  rw [← hbatch] at hround
  simp only [View.hotWaits, hhot, hup, periodAt, roundsPerBatch_eq, waitsPerPeriod_eq,
    Option.elim_some, Bool.toNat_true] at *
  omega

/-- The order of the clocks is the order of the batches and of the barriers in them. -/
theorem Sending.le_of_clock_le {x y : Sending π} (hx : x.stage ≤ waitsPerPeriod)
    (hy : y.stage ≤ waitsPerPeriod) (h : x.clock ≤ y.clock) :
    x.batch < y.batch ∨ x.batch = y.batch ∧ x.stage ≤ y.stage := by
  simp only [Sending.clock, periodAt, roundsPerBatch_eq, waitsPerPeriod_eq] at *
  omega

/-! ### What is sent when -/

/-- The packets that have been sent. -/
structure SentOk (s : State n π) : Prop where
  /-- a hot period sends every entry of the queue in its place -/
  placed : ∀ i r, s.hot i = some r → 0 < (n i).toNat ∧ HotPeriod.InPlace
    (roundsPerBatch * s.sys.batch i.toNat + 1) (s.sys.hotSendQ i.toNat) (r.done ++ r.todo)
  sorted : s.sent.Pairwise fun x y => x.clock ≤ y.clock
  clock : ∀ x ∈ s.sent, x.clock ≤ (s.nodes x.node).left
  stage : ∀ x ∈ s.sent, x.stage ≤ waitsPerPeriod
  window : ∀ x ∈ s.sent, ∀ w, x.event = .sendmmsg w → ∀ e ∈ w,
    e.miniBatchNum = roundsPerBatch * x.batch + x.stage ∧ 1 ≤ x.stage ∧ x.stage ≤ roundsPerBatch

theorem SentOk.stage_of_txn (h : SentOk s) {x : Sending π} (hx : x ∈ s.sent) {t : Attempt}
    (ht : t ∈ x.event.txns) : 1 ≤ x.stage ∧ x.stage ≤ roundsPerBatch := by
  cases hev : x.event with
  | waitNodes | sendmsg =>
    rw [hev] at ht
    cases ht
  | sendmmsg w =>
    rw [hev] at ht
    obtain ⟨e, he, -⟩ := List.mem_map.mp ht
    exact (h.window x hx w hev e he).2

theorem left_le_of_move {k : UInt32} {v v' : View k π} (h : v.Move v') :
    v.node.left ≤ v'.node.left := by
  cases h with
  | stays h => exact h.left
  | main _ henter => exact henter.left.ge
  | critical _ henter => exact henter.left.ge
  | waitNodes _ henter => exact henter.left.ge
  | _ => exact Nat.le_refl _

theorem Inv.inPlace_of_runHotPeriod (h : Inv s) {i : Bool} {t : Fin (n i).toNat}
    {startFill endFill : List π} {evs : List (HotEvent Attempt π)} (hend : s.AtBatchEnd i t)
    (hbatch : s.sys.batch i.toNat = s.batchNum i t)
    (hrun : HotPeriod.runHotPeriod startFill endFill (s.sys.hotSendQ i.toNat) (s.pastMbNum i)
      (s.round i t) = some evs) :
    HotPeriod.InPlace (roundsPerBatch * s.sys.batch i.toNat + 1) (s.sys.hotSendQ i.toNat) evs := by
  have hpast : s.pastMbNum i = roundsPerBatch * s.sys.batch i.toNat + 1 :=
    (h.barriers.node i).past
  have hround : s.round i t = roundsPerBatch * (s.sys.batch i.toNat + 1) + 1 := hbatch ▸ hend.2
  have hsorted : HotPeriod.SortedQ (s.sys.hotSendQ i.toNat).sendQ
      (s.sys.hotSendQ i.toNat).sendQTail (s.pastMbNum i) (s.round i t) := by
    rw [hpast, hround]
    exact (h.queues i).sorted
  obtain ⟨evs', hevs', hplace⟩ := HotPeriod.runHotPeriod_inPlace startFill endFill _ hsorted
  obtain rfl := Option.some.inj (hrun.symm.trans hevs')
  rw [← hpast]
  exact hplace

theorem SentOk.placed_step (h : SentOk s) (hinv : Inv s) {i : Bool} (hstep : HotStep s a s' i)
    {r : HotRun π} (hr : s'.hot i = some r) : 0 < (n i).toNat ∧ HotPeriod.InPlace
      (roundsPerBatch * s'.sys.batch i.toNat + 1) (s'.sys.hotSendQ i.toNat) (r.done ++ r.todo) := by
  cases hstep with
  | stays hbatch hhot _ _ hqueue =>
    rw [hbatch, hqueue]
    exact h.placed i r (hhot ▸ hr)
  | claims _ _ hhot | ends _ hhot =>
    rw [hhot] at hr
    cases hr
  | @begins t _ _ _ ha hend hbatch hrun hnone hhot hsent hsys =>
    obtain rfl := Option.some.inj (hhot.symm.trans hr)
    rw [hsys]
    exact ⟨t.pos, hinv.inPlace_of_runHotPeriod hend hbatch hrun⟩
  | @event _ done ev todo hhot hhot' hsent hsys =>
    obtain rfl := Option.some.inj (hhot'.symm.trans hr)
    have heq : (done ++ [ev]) ++ todo = done ++ ev :: todo := (List.append_cons done ev todo).symm
    rw [hsys, heq]
    exact h.placed i _ hhot

/-- An entry of a window is one of the queue. -/
theorem SentOk.mem_queue (h : SentOk s) {i : Bool} {r : HotRun π} (hhot : s.hot i = some r)
    {w : List (HotTxnEntry Attempt)} (hw : .sendmmsg w ∈ r.done ++ r.todo)
    {e : HotTxnEntry Attempt} (he : e ∈ w) :
    ∃ j < (s.sys.hotSendQ i.toNat).sendQTail, (s.sys.hotSendQ i.toNat).sendQ j = e := by
  have hmem : e ∈ (List.range (s.sys.hotSendQ i.toNat).sendQTail).map
      (s.sys.hotSendQ i.toNat).sendQ := by
    obtain ⟨pre, post, heq⟩ := List.append_of_mem hw
    rw [← (h.placed i r hhot).2.sent, heq, HotPeriod.windows_append]
    exact List.mem_flatten.mpr ⟨w, List.mem_append_right _ List.mem_cons_self, he⟩
  obtain ⟨j, hj, heq⟩ := List.mem_map.mp hmem
  exact ⟨j, List.mem_range.mp hj, heq⟩

/-- The packets of the next event. -/
theorem SentOk.next (h : SentOk s) (hinv : Inv s) {i : Bool} {mb : ℕ}
    {done todo : List (HotEvent Attempt π)} {ev : HotEvent Attempt π}
    (hhot : s.hot i = some ⟨mb, done, ev :: todo⟩) {x : Sending π}
    (hx : x = ⟨i, s.sys.batch i.toNat, done, ev⟩) :
    (s.nodes i).entered = x.clock ∧ x.stage ≤ waitsPerPeriod ∧ ∀ w, x.event = .sendmmsg w →
      ∀ e ∈ w, e.miniBatchNum = roundsPerBatch * x.batch + x.stage ∧ 1 ≤ x.stage ∧
        x.stage ≤ roundsPerBatch := by
  subst hx
  obtain ⟨hpos, hplaced⟩ := h.placed i _ hhot
  have hcount := ((hinv.barriers.node i).hot _ hhot).count
  refine ⟨(hinv.barriers.node i).entered_of_hot hpos hhot, hcount ▸ Nat.le_add_right _ _, ?_⟩
  rintro w rfl e he
  have hwait : waits done = _ := hplaced.place done w todo rfl e he
  obtain ⟨j, hj, rfl⟩ := h.mem_queue hhot (List.mem_append_right _ List.mem_cons_self) he
  have hge : roundsPerBatch * s.sys.batch i.toNat + 1 ≤ _ := (hinv.queues i).sorted.ge j hj
  have hlt : _ < roundsPerBatch * (s.sys.batch i.toNat + 1) + 1 := (hinv.queues i).sorted.lt j hj
  rw [Nat.mul_succ] at hlt
  show _ = roundsPerBatch * s.sys.batch i.toNat + waits done ∧ 1 ≤ waits done ∧ waits done ≤ _
  omega

theorem SentOk.move (h : SentOk s) (hinv : Inv s) (hf : Filled s a) (hmove : Move c s a s') :
    SentOk s' := by
  have hleft : ∀ i, (s.nodes i).left ≤ (s'.nodes i).left := fun i =>
    left_le_of_move (hmove.view (hinv.punctual hf hmove) i)
  have hplaced := fun i r => h.placed_step hinv (hmove.hotStep hinv i) (r := r)
  have hclock : ∀ x ∈ s.sent, x.clock ≤ (s'.nodes x.node).left := fun x hx =>
    (h.clock x hx).trans (hleft x.node)
  rcases hmove.sent with heq | ⟨i, mb, done, ev, todo, hhot, hphase, hnodes, -, heq⟩
  · exact ⟨hplaced, heq ▸ h.sorted, heq ▸ hclock, heq ▸ h.stage, heq ▸ h.window⟩
  set x : Sending π := ⟨i, s.sys.batch i.toNat, done, ev⟩ with hx
  obtain ⟨hentered, hstage, hwindow⟩ := h.next hinv hhot hx
  have hnow : (s.nodes i).left = x.clock := by
    have heq := (hinv.barriers.nodes i).entered_eq
    rw [hphase, if_neg (by decide), hentered] at heq
    exact heq.symm
  have hforall : ∀ {p : Sending π → Prop}, (∀ y ∈ s.sent, p y) → p x → ∀ y ∈ s'.sent, p y := by
    intro p hold hnew y hy
    rw [heq] at hy
    rcases List.mem_append.mp hy with hy | hy
    · exact hold y hy
    · obtain rfl := List.mem_singleton.mp hy
      exact hnew
  refine ⟨hplaced, ?_, hforall hclock (hnodes ▸ hnow.ge), hforall h.stage hstage,
    hforall h.window hwindow⟩
  -- the node has entered as many barriers as any other node has left
  rw [heq]
  refine List.pairwise_append.mpr ⟨h.sorted, List.pairwise_singleton _ _, fun y hy z hz => ?_⟩
  obtain rfl := List.mem_singleton.mp hz
  rw [← hentered]
  exact (h.clock y hy).trans (hinv.barriers.left_le i y.node)

theorem sentOk_init (value : ℕ → DbKey → BitVec 32) (mem : ℕ → ℕ → HotTxnEntry Attempt) :
    SentOk (State.init value mem : State n π) :=
  ⟨nofun, List.Pairwise.nil, nofun, nofun, nofun⟩

/-! ### The packets that load the switch and read it back -/

/-- The packets that are sent alone, with their stage. -/
def Sending.alone (x : Sending π) : List (ℕ × π) := HotPeriod.alone x.stage [x.event]

/-- What a node has sent alone in a batch. -/
def State.filled (s : State n π) (i : Bool) (b : ℕ) : List (ℕ × π) :=
  ((s.sentBy i).filter fun x => x.batch = b).flatMap Sending.alone

/-- The packets that a hot period begins with and those that it ends with, in their stages. -/
def marked (fills : List π × List π) : List (ℕ × π) :=
  fills.1.map (Prod.mk 0) ++ fills.2.map (Prod.mk (roundsPerBatch + 1))

/-- The packets that a hot period sends alone are given by `F` for its batch and its node. -/
def Loads (F : ℕ → Bool → List π × List π → Prop) (s : State n π) : Action n π → Prop
  | .runHotPeriod i _ startFill endFill => F (s.sys.batch i.toNat) i (startFill, endFill)
  | _ => True

/-- What a node has sent alone. -/
structure FillsOk (F : ℕ → Bool → List π × List π → Prop) (s : State n π) (i : Bool) : Prop where
  past : ∀ b < s.sys.batch i.toNat, ∃ fills, F b i fills ∧ s.filled i b = marked fills
  current : ∀ r, s.hot i = some r → ∃ fills, F (s.sys.batch i.toNat) i fills ∧
    HotPeriod.alone 0 (r.done ++ r.todo) = marked fills
  now : s.filled i (s.sys.batch i.toNat) = (s.hot i).elim [] fun r => HotPeriod.alone 0 r.done
  later : ∀ b, s.sys.batch i.toNat < b → s.filled i b = []

section Fills

variable {F : ℕ → Bool → List π × List π → Prop} {i : Bool}

theorem filled_congr (h : s'.sentBy i = s.sentBy i) : s'.filled i = s.filled i := by
  funext b
  rw [State.filled, h]
  rfl

theorem FillsOk.congr (h : FillsOk F s i)
    (hbatch : s'.sys.batch i.toNat = s.sys.batch i.toNat) (hhot : s'.hot i = s.hot i)
    (hsent : s'.sentBy i = s.sentBy i) : FillsOk F s' i := by
  obtain ⟨hpast, hcurrent, hnow, hlater⟩ := h
  constructor <;> simp only [filled_congr hsent, hbatch, hhot] <;> assumption

/-- What has been sent alone after an event. -/
theorem filled_event {done : List (HotEvent Attempt π)} {ev : HotEvent Attempt π}
    (hsent : s'.sentBy i =
      s.sentBy i ++ if ev.isWait then [] else [⟨i, s.sys.batch i.toNat, done, ev⟩]) (b : ℕ) :
    s'.filled i b =
      s.filled i b ++
        if b = s.sys.batch i.toNat then HotPeriod.alone (waits done) [ev] else [] := by
  rw [State.filled, hsent, List.filter_append, List.flatMap_append]
  refine congrArg _ ?_
  cases ev with
  | waitNodes =>
    rw [HotEvent.isWait, if_pos rfl]
    split_ifs <;> rfl
  | sendmsg | sendmmsg =>
    show ([_].filter fun x : Sending π => x.batch = b).flatMap Sending.alone = _
    rw [List.filter_cons]
    by_cases hb : b = s.sys.batch i.toNat
    · rw [if_pos (decide_eq_true hb.symm), if_pos hb]
      exact List.append_nil _
    · rw [if_neg fun hd => hb (of_decide_eq_true hd).symm, if_neg hb]
      rfl

theorem FillsOk.step (h : FillsOk F s i) (hp : Punctual s a) (hl : Loads F s a)
    (hstep : HotStep s a s' i) : FillsOk F s' i := by
  cases hstep with
  | stays hbatch hhot hsent => exact h.congr hbatch hhot hsent
  | claims hbatch hnone hhot hsent => exact h.congr hbatch (hhot.trans hnone.symm) hsent
  | @begins t startFill endFill evs ha hend hbatch hrun hnone hhot hsent hsys =>
    subst ha
    have hnow := h.now
    rw [hnone] at hnow
    refine ⟨?_, fun r hr => ?_, ?_, ?_⟩
    · rw [hsys, filled_congr hsent]
      exact h.past
    · obtain rfl := Option.some.inj (hhot.symm.trans hr)
      refine ⟨(startFill, endFill), hsys ▸ hl, ?_⟩
      refine (HotPeriod.alone_runHotPeriod hrun).trans ?_
      rw [hp evs hrun]
      rfl
    · rw [hsys, filled_congr hsent, hhot]
      exact hnow
    · rw [hsys, filled_congr hsent]
      exact h.later
  | @event mb done ev todo hhot hhot' hsent hsys =>
    obtain ⟨fills, hF, hall⟩ := h.current _ hhot
    have hnow := h.now
    rw [hhot] at hnow
    -- the event is of the batch that is sent
    have hother : ∀ b, b ≠ s.sys.batch i.toNat → s'.filled i b = s.filled i b := by
      intro b hb
      rw [filled_event hsent, if_neg hb, List.append_nil]
    refine ⟨fun b hb => ?_, fun r hr => ⟨fills, hsys ▸ hF, ?_⟩, ?_, fun b hb => ?_⟩
    · rw [hsys] at hb
      rw [hother b (Nat.ne_of_lt hb)]
      exact h.past b hb
    · obtain rfl := Option.some.inj (hhot'.symm.trans hr)
      rw [← hall]
      exact congrArg _ (List.append_cons done ev todo).symm
    · rw [hsys, filled_event hsent, if_pos rfl, hnow, hhot']
      show _ = HotPeriod.alone 0 (done ++ [ev])
      rw [HotPeriod.alone_append, Nat.zero_add]
      rfl
    · rw [hsys] at hb
      rw [hother b (Nat.ne_of_gt hb)]
      exact h.later b hb
  | @ends mb done hhot hhot' hbatch hsent =>
    obtain ⟨fills, hF, hall⟩ := h.current _ hhot
    have hnow := h.now
    rw [hhot] at hnow
    refine ⟨fun b hb => ?_, fun r hr => ?_, ?_, fun b hb => ?_⟩
    · rw [filled_congr hsent]
      rw [hbatch] at hb
      rcases Nat.lt_succ_iff_lt_or_eq.mp hb with hb | rfl
      · exact h.past b hb
      · -- the hot period has come to its end
        rw [List.append_nil] at hall
        exact ⟨fills, hF, hnow.trans hall⟩
    · rw [hhot'] at hr
      cases hr
    · rw [hbatch, filled_congr hsent, hhot']
      exact h.later _ (Nat.lt_succ_self _)
    · rw [filled_congr hsent]
      exact h.later b (by omega)

/-- What is sent alone is sent in the first stage or in the last one. -/
theorem FillsOk.of_mem (h : FillsOk F s i) {b k : ℕ} {pkt : π} (hmem : (k, pkt) ∈ s.filled i b) :
    ∃ fills, F b i fills ∧ (k = 0 ∧ pkt ∈ fills.1 ∨ k = roundsPerBatch + 1 ∧ pkt ∈ fills.2) := by
  have hmarked : ∀ fills : List π × List π, (k, pkt) ∈ marked fills →
      k = 0 ∧ pkt ∈ fills.1 ∨ k = roundsPerBatch + 1 ∧ pkt ∈ fills.2 := by
    intro fills hmem
    simpa [marked, eq_comm (a := k), and_comm] using hmem
  rcases Nat.lt_trichotomy b (s.sys.batch i.toNat) with hb | rfl | hb
  · obtain ⟨fills, hF, heq⟩ := h.past b hb
    exact ⟨fills, hF, hmarked fills (heq ▸ hmem)⟩
  · rw [h.now] at hmem
    cases hhot : s.hot i with
    | none =>
      rw [hhot] at hmem
      cases hmem
    | some r =>
      obtain ⟨fills, hF, heq⟩ := h.current r hhot
      rw [hhot] at hmem
      refine ⟨fills, hF, hmarked fills ?_⟩
      rw [← heq, HotPeriod.alone_append]
      exact List.mem_append_left _ hmem
  · rw [h.later b hb] at hmem
    cases hmem

theorem fillsOk_init (value : ℕ → DbKey → BitVec 32) (mem : ℕ → ℕ → HotTxnEntry Attempt)
    (i : Bool) : FillsOk F (State.init value mem : State n π) i :=
  ⟨nofun, nofun, rfl, fun _ _ => rfl⟩

end Fills

/-! ### Runs -/

/-- In the run the hot period of node `i` for batch `b` begins in state `s₁`; `fills` are the
packets that it begins with and those that it ends with. -/
def BeginsHot (c : Config) (s₀ : State n π) (as : List (Action n π)) (i : Bool) (b : ℕ)
    (s₁ : State n π) (fills : List π × List π) : Prop :=
  ∃ as₁ t as₂, as = as₁ ++ .runHotPeriod i t fills.1 fills.2 :: as₂ ∧
    run (step c) s₀ as₁ = some s₁ ∧ s₁.sys.batch i.toNat = b

/-- What has been sent in a run. -/
structure Sent (F : ℕ → Bool → List π × List π → Prop) (s : State n π) : Prop where
  inv : Inv s
  sent : SentOk s
  fills : ∀ i, FillsOk F s i

theorem Sent.move {F : ℕ → Bool → List π × List π → Prop} (h : Sent F s) (hf : Filled s a)
    (hl : Loads F s a) (hmove : Move c s a s') : Sent F s' :=
  ⟨h.inv.move hf hmove, h.sent.move h.inv hf hmove, fun i =>
    (h.fills i).step (h.inv.punctual hf hmove) hl (hmove.hotStep h.inv i)⟩

theorem sent_init (F : ℕ → Bool → List π × List π → Prop) (value : ℕ → DbKey → BitVec 32)
    (mem : ℕ → ℕ → HotTxnEntry Attempt) : Sent F (State.init value mem : State n π) :=
  ⟨inv_init value mem, sentOk_init value mem, fillsOk_init value mem⟩

/-- **The packets of both nodes are sent in the order of the batches and of the barriers in their
hot periods.**  When every hot period begins with a queue that is not empty, packets are sent after
all packets of smaller batches or of the same batch and smaller stages, whichever nodes send them.
The transactions of mini-batch `m` are sent in stage `m - 21 * batch`, which is between 1 and 21.
The packets that load the switch are sent in stage 0, and those that read it back in stage 22. -/
theorem packets_in_order (c : Config) (value : ℕ → DbKey → BitVec 32)
    (mem : ℕ → ℕ → HotTxnEntry Attempt) (as : List (Action n π)) (s : State n π)
    (hf : AlongRun (step c) Filled (State.init value mem) as)
    (hrun : run (step c) (State.init value mem) as = some s) :
    (s.sent.Pairwise fun x y => x.batch < y.batch ∨ x.batch = y.batch ∧ x.stage ≤ y.stage) ∧
    (∀ x ∈ s.sent, ∀ w, x.event = .sendmmsg w → ∀ e ∈ w,
      e.miniBatchNum = roundsPerBatch * x.batch + x.stage ∧ 1 ≤ x.stage ∧
        x.stage ≤ roundsPerBatch) ∧
    ∀ x ∈ s.sent, ∀ pkt, x.event = .sendmsg pkt → ∃ s₁ fills,
      BeginsHot c (State.init value mem) as x.node x.batch s₁ fills ∧
        (x.stage = 0 ∧ pkt ∈ fills.1 ∨ x.stage = roundsPerBatch + 1 ∧ pkt ∈ fills.2) := by
  set F : ℕ → Bool → List π × List π → Prop := fun b i fills =>
    ∃ s₁, BeginsHot c (State.init value mem) as i b s₁ fills
  obtain ⟨-, hs, hfills⟩ : Sent F s := by
    refine run_invariant_of_along (fun t a _ h hP hstep => ?_) (sent_init F value mem)
      (hf.and (alongRun_of_run _ as)) hrun
    refine h.move hP.1 ?_ (move_of_step hstep)
    cases a with
    | runHotPeriod i t' startFill endFill =>
      obtain ⟨-, as₁, as₂, has, hrun₁⟩ := hP
      exact ⟨t, as₁, t', as₂, has, hrun₁, rfl⟩
    | _ => trivial
  refine ⟨?_, hs.window, fun x hx pkt hpkt => ?_⟩
  · exact hs.sorted.imp_of_mem fun hx hy hle =>
      Sending.le_of_clock_le (hs.stage _ hx) (hs.stage _ hy) hle
  · have hmem : (x.stage, pkt) ∈ s.filled x.node x.batch := by
      refine List.mem_flatMap.mpr ⟨x, ?_, ?_⟩
      · simp [State.sentBy, hx]
      · rw [Sending.alone, hpkt]
        exact List.mem_cons_self
    obtain ⟨fills, ⟨s₁, hbegins⟩, hstage⟩ := (hfills x.node).of_mem hmem
    exact ⟨s₁, fills, hbegins, hstage⟩

theorem packets_in_order_twoWrites :
    ∃ s, AlongRun (step System.twoNodes) Filled bothStart twoWrites ∧
      run (step System.twoNodes) bothStart twoWrites = some s ∧
      s.sent.map (fun x => (x.node, x.batch, x.stage)) =
        [(false, 0, 0), (false, 0, 1), (true, 0, 2)] ∧
      s.sent.Pairwise fun x y => x.batch < y.batch ∨ x.batch = y.batch ∧ x.stage ≤ y.stage := by
  have hrun : (run (step System.twoNodes) bothStart twoWrites).map
      (fun s => s.sent.map fun x => (x.node, x.batch, x.stage)) =
      some [(false, 0, 0), (false, 0, 1), (true, 0, 2)] := by
    decide +kernel
  obtain ⟨s, hs, hsent⟩ := Option.map_eq_some_iff.mp hrun
  obtain ⟨hsorted, -⟩ := packets_in_order System.twoNodes _ _ twoWrites s filled_twoWrites hs
  exact ⟨s, filled_twoWrites, hs, hsent, hsorted⟩

end Lockstep

end P4db
