import P4db.Comm.Equiv.Barrier
import P4db.Ee.Equiv.HotPeriod
import P4db.Ee.Equiv.Progress
import P4db.Ee.Lockstep
import P4db.Utils.Equiv.RBarrier

/-!
# The workers of both nodes stay together

A node enters the barrier between the nodes from three places: `main`, the threads in
`wait_workers`, and thread 0 in its hot period.  It never does so from two of them at once, and the
number of barriers that it has entered tells how far its threads are: this is a clock
(`NodeOk.clock`).  When both nodes enter the same number of barriers in every hot period, the clocks
of the nodes show the same, and `wait_workers` is a barrier for the threads of both nodes together:
`wait_workers_safe`.
-/

namespace P4db.Lockstep

open Transition

variable {n : Bool → UInt32} {π : Type} {c : Config} {s s' : State n π} {a : Action n π}

/-! ### Moves -/

/-- The changes that steps make. -/
inductive Move (c : Config) (s : State n π) : Action n π → State n π → Prop
  | main {i nodes} (hup : s.up i = false) (hnodes : Barrier.step s.nodes (.enter i) = some nodes) :
      Move c s (.main i) { s with up := Function.update s.up i true, nodes := nodes }
  | call {i t txn sys} (hmini : s.InMiniBatch i t)
      (hsys : s.sys.step c (.start (worker i t) txn (some (s.round i t))) = some sys) :
      Move c s (.call i t txn) { s with sys := sys }
  | leftover {i t txn sys} (hpc : ((s.batchBar i).thread t).pc = .inMiddle)
      (hsys : s.sys.step c (.start (worker i t) txn none) = some sys) :
      Move c s (.leftover i t txn) { s with sys := sys }
  | exec {a sys} (hinner : a.inner = true) (hsys : s.sys.step c a = some sys) :
      Move c s (.exec a) { s with sys := sys }
  | arrive {i t} (hpc : ((s.localBarrier i).thread t).pc = .outside) (hidle : s.Idle i t)
      (hbatch : ((s.batchBar i).thread t).pc = .outside)
      (hmay : s.round i t = 0 ∧ s.up i = true ∧ (s.nodes i).phase = .outside ∨ s.InMiniBatch i t) :
      Move c s (.waitWorkers i t) (s.stepLocal i t)
  | critical {i t nodes} (hpc : ((s.localBarrier i).thread t).pc = .beforeMiddle)
      (hnodes : Barrier.step s.nodes (.enter i) = some nodes) :
      Move c s (.waitWorkers i t) { s.stepLocal i t with nodes := nodes }
  | criticalEnd {i t} (hpc : ((s.localBarrier i).thread t).pc = .inMiddle)
      (hphase : (s.nodes i).phase = .outside) :
      Move c s (.waitWorkers i t) (s.stepLocal i t)
  | goOn {i t} (hout : ((s.localBarrier i).thread t).pc ≠ .outside)
      (hbefore : ((s.localBarrier i).thread t).pc ≠ .beforeMiddle)
      (hin : ((s.localBarrier i).thread t).pc ≠ .inMiddle) :
      Move c s (.waitWorkers i t) (s.stepLocal i t)
  | arriveBatch {i t} (hpc : ((s.batchBar i).thread t).pc = .outside) (hidle : s.Idle i t)
      (hend : s.AtBatchEnd i t)
      (hhot : t.val = 0 → s.sys.batch i.toNat = s.batchNum i t + 1) :
      Move c s (.batchBar i t) (s.stepBatch i t)
  | goOnBatch {i t} (hpc : ((s.batchBar i).thread t).pc ≠ .outside)
      (hidle : ((s.batchBar i).thread t).pc = .inMiddle → s.Idle i t) :
      Move c s (.batchBar i t) (s.stepBatch i t)
  | barrier {a nodes} (hne : ∀ i, a ≠ .enter i) (hnodes : Barrier.step s.nodes a = some nodes) :
      Move c s (.barrier a) { s with nodes := nodes }
  | runHotPeriod {i t startFill endFill evs} (ht : t.val = 0) (hidle : s.Idle i t)
      (hend : s.AtBatchEnd i t)
      (hbatch : s.sys.batch i.toNat = s.batchNum i t) (hnone : s.hot i = none)
      (hrun : HotPeriod.runHotPeriod startFill endFill (s.sys.hotSendQ i.toNat) (s.pastMbNum i)
        (s.round i t) = some evs) :
      Move c s (.runHotPeriod i t startFill endFill)
        { s with hot := Function.update s.hot i (some ⟨s.round i t, [], evs⟩) }
  | waitNodes {i mb done todo nodes} (hhot : s.hot i = some ⟨mb, done, .waitNodes :: todo⟩)
      (hnodes : Barrier.step s.nodes (.enter i) = some nodes) :
      Move c s (.hotEvent i) { s with
        hot := Function.update s.hot i (some ⟨mb, done ++ [.waitNodes], todo⟩)
        nodes := nodes }
  | send {i mb done ev todo} (hhot : s.hot i = some ⟨mb, done, ev :: todo⟩) (hev : ev ≠ .waitNodes)
      (hphase : (s.nodes i).phase = .outside) :
      Move c s (.hotEvent i) { s with
        hot := Function.update s.hot i (some ⟨mb, done ++ [ev], todo⟩)
        sent := s.sent ++ [⟨i, s.sys.batch i.toNat, done, ev⟩] }
  | doneSending {i mb done sys} (hhot : s.hot i = some ⟨mb, done, []⟩)
      (hphase : (s.nodes i).phase = .outside)
      (hsys : s.sys.step c (.doneSending i.toNat) = some sys) :
      Move c s (.doneSending i) { s with
        sys := sys
        pastMbNum := Function.update s.pastMbNum i mb
        hot := Function.update s.hot i none }

theorem move_of_waitWorkers {i : Bool} {t : Fin (n i).toNat} (h : s.waitWorkers i t = some s') :
    Move c s (.waitWorkers i t) s' := by
  unfold State.waitWorkers at h
  split at h
  · next hpc =>
    split_ifs at h with hg
    obtain rfl := Option.some.inj h
    exact .arrive hpc hg.1 hg.2.1 hg.2.2
  · next hpc =>
    obtain ⟨nodes, hnodes, rfl⟩ := Option.map_eq_some_iff.mp h
    exact .critical hpc hnodes
  · next hpc =>
    split_ifs at h with hg
    obtain rfl := Option.some.inj h
    exact .criticalEnd hpc hg
  · next hout hbefore hin =>
    obtain rfl := Option.some.inj h
    exact .goOn hout hbefore hin

theorem move_of_waitBatch {i : Bool} {t : Fin (n i).toNat} (h : s.waitBatch i t = some s') :
    Move c s (.batchBar i t) s' := by
  unfold State.waitBatch at h
  split at h
  · next hpc =>
    split_ifs at h with hg
    obtain rfl := Option.some.inj h
    exact .arriveBatch hpc hg.1 hg.2.1 hg.2.2
  · next hpc =>
    split_ifs at h with hg
    obtain rfl := Option.some.inj h
    exact .goOnBatch (by rw [hpc]; decide) fun _ => hg.1
  · next hout hin =>
    obtain rfl := Option.some.inj h
    exact .goOnBatch hout fun hpc => absurd hpc hin

theorem move_of_hotEvent {i : Bool} (h : s.hotEvent i = some s') : Move c s (.hotEvent i) s' := by
  unfold State.hotEvent at h
  split at h
  · next mb done ev todo hhot =>
    split_ifs at h with hphase
    cases ev with
    | waitNodes =>
      obtain ⟨nodes, hnodes, rfl⟩ := Option.map_eq_some_iff.mp h
      exact .waitNodes hhot hnodes
    | sendmmsg window =>
      obtain rfl := Option.some.inj h
      exact .send hhot nofun hphase
    | sendmsg pkt =>
      obtain rfl := Option.some.inj h
      exact .send hhot nofun hphase
  · cases h

theorem move_of_doneSending {i : Bool} (h : s.doneSending i c = some s') :
    Move c s (.doneSending i) s' := by
  unfold State.doneSending at h
  split at h
  · next mb done hhot =>
    split_ifs at h with hphase
    obtain ⟨sys, hsys, rfl⟩ := Option.map_eq_some_iff.mp h
    exact .doneSending hhot hphase hsys
  · cases h

/-- There are no other moves. -/
theorem move_of_step (h : step c s a = some s') : Move c s a s' := by
  unfold step at h
  split_ifs at h
  cases a with
  | main i =>
    simp only [exec] at h
    split_ifs at h with hup
    obtain ⟨nodes, hnodes, rfl⟩ := Option.map_eq_some_iff.mp h
    exact .main (Bool.eq_false_of_not_eq_true hup) hnodes
  | call i t txn =>
    simp only [exec] at h
    split_ifs at h with hmini
    obtain ⟨sys, hsys, rfl⟩ := Option.map_eq_some_iff.mp h
    exact .call hmini hsys
  | leftover i t txn =>
    simp only [exec] at h
    split_ifs at h with hpc
    obtain ⟨sys, hsys, rfl⟩ := Option.map_eq_some_iff.mp h
    exact .leftover hpc hsys
  | exec a =>
    cases a with
    | thread w early =>
      obtain ⟨sys, hsys, rfl⟩ := Option.map_eq_some_iff.mp h
      exact .exec rfl hsys
    | deliver p =>
      obtain ⟨sys, hsys, rfl⟩ := Option.map_eq_some_iff.mp h
      exact .exec rfl hsys
    | start | doneSending => cases h
  | waitWorkers i t => exact move_of_waitWorkers h
  | batchBar i t => exact move_of_waitBatch h
  | barrier a =>
    cases a with
    | enter i => cases h
    | deliver | observe | finish =>
      obtain ⟨nodes, hnodes, rfl⟩ := Option.map_eq_some_iff.mp h
      exact .barrier nofun hnodes
  | runHotPeriod i t startFill endFill =>
    simp only [exec, State.runHotPeriod] at h
    split_ifs at h with hg
    obtain ⟨ht, hidle, hend, hbatch, hnone⟩ := hg
    obtain ⟨evs, hrun, rfl⟩ := Option.map_eq_some_iff.mp h
    exact .runHotPeriod ht hidle hend hbatch (Option.isNone_iff_eq_none.mp hnone) hrun
  | hotEvent i => exact move_of_hotEvent h
  | doneSending i => exact move_of_doneSending h

/-! ### One node -/

/-- What one node knows. -/
structure View (k : UInt32) (π : Type) where
  up : Bool
  node : Barrier.Node
  localBarrier : RBarrier.State k
  batchBar : RBarrier.State k
  batch : ℕ
  pastMbNum : ℕ
  hot : Option (HotRun π)

def State.view (s : State n π) (i : Bool) : View (n i) π :=
  ⟨s.up i, s.nodes i, s.localBarrier i, s.batchBar i, s.sys.batch i.toNat, s.pastMbNum i, s.hot i⟩

/-- The node enters the barrier between the nodes. -/
structure Enters (node node' : Barrier.Node) : Prop where
  phase : node.phase = .outside
  entered : node'.entered = node.entered + 1
  left : node'.left = node.left

/-- The node is still in the barrier, or outside, or leaves it. -/
structure Stays (node node' : Barrier.Node) : Prop where
  phase : node'.phase ≠ .outside → node.phase ≠ .outside
  entered : node'.entered = node.entered
  left : node.left ≤ node'.left

theorem Stays.refl (node : Barrier.Node) : Stays node node := ⟨id, rfl, Nat.le_refl _⟩

section Nodes

variable {nodes nodes' : Barrier.State} {i j : Bool}

theorem enters_of_step (h : Barrier.step nodes (.enter i) = some nodes') :
    Enters (nodes i) (nodes' i) := by
  simp only [Barrier.step] at h
  split_ifs at h with hphase
  obtain rfl := Option.some.inj h
  rw [Function.update_of_ne (Bool.not_ne_self i).symm, Function.update_self]
  exact ⟨hphase, rfl, rfl⟩

theorem stays_of_peer (h : Barrier.step nodes (.enter i) = some nodes') (hj : j ≠ i) :
    Stays (nodes j) (nodes' j) := by
  obtain rfl : j = !i := Bool.eq_not_of_ne hj
  simp only [Barrier.step] at h
  split_ifs at h with hphase
  obtain rfl := Option.some.inj h
  rw [Function.update_self]
  exact ⟨id, rfl, Nat.le_refl _⟩

theorem Stays.update {node : Barrier.Node} (h : Stays (nodes i) node) (j : Bool) :
    Stays (nodes j) (Function.update nodes i node j) := by
  rcases eq_or_ne j i with rfl | hj
  · rwa [Function.update_self]
  · rw [Function.update_of_ne hj]
    exact .refl _

theorem stays_of_step {a : Barrier.Action} (h : Barrier.step nodes a = some nodes')
    (ha : ∀ i, a ≠ .enter i) (j : Bool) : Stays (nodes j) (nodes' j) := by
  obtain ⟨i, rfl, -, -⟩ | ⟨i, m, rest, -, -, rfl⟩ | ⟨i, -, hwait, -, rfl⟩ | ⟨i, -, -, rfl⟩ :=
    Barrier.step_cases h
  · exact absurd rfl (ha i)
  · refine Stays.update ?_ j
    exact ⟨id, rfl, Nat.le_refl _⟩
  · refine Stays.update ?_ j
    exact ⟨fun _ => by rw [hwait]; decide, rfl, Nat.le_succ _⟩
  · refine Stays.update ?_ j
    exact ⟨fun hne => absurd rfl hne, rfl, Nat.le_refl _⟩

end Nodes

theorem roundsPerBatch_eq : roundsPerBatch = 21 := by decide

/-- The calls of `wait_nodes` in a hot period: two, and one for each mini-batch from that of the
last hot period on. -/
def waitsPerPeriod : ℕ := roundsPerBatch + 2

theorem waitsPerPeriod_eq : waitsPerPeriod = 23 := by decide

/-- The step does not begin a hot period with another number of barriers. -/
def Punctual (s : State n π) : Action n π → Prop
  | .runHotPeriod i t startFill endFill => ∀ evs,
      HotPeriod.runHotPeriod startFill endFill (s.sys.hotSendQ i.toNat) (s.pastMbNum i)
        (s.round i t) = some evs →
      waits evs = waitsPerPeriod
  | _ => True

namespace View

variable {k : UInt32} (v : View k π)

section
variable (t : Fin k.toNat)

def round : ℕ := (v.localBarrier.thread t).round
def entered : ℕ := (v.localBarrier.thread t).entered
def batchNum : ℕ := (v.batchBar.thread t).round
def inWorkers : Prop := (v.localBarrier.thread t).pc ≠ .outside
def inBatchBar : Prop := (v.batchBar.thread t).pc ≠ .outside
def AtBatchEnd : Prop :=
  ¬v.inWorkers t ∧ ¬v.inBatchBar t ∧ v.round t = roundsPerBatch * (v.batchNum t + 1) + 1

def stepLocal : View k π := { v with localBarrier := v.localBarrier.step true t }
def stepBatch : View k π := { v with batchBar := v.batchBar.step false t }

end

/-- The calls of `wait_nodes` that thread 0 has made in its hot period. -/
def hotWaits : ℕ := v.hot.elim 0 fun r => waits r.done

/-- The changes that steps make to a node. -/
inductive Move : View k π → Prop
  | stays {node} (h : Stays v.node node) : Move { v with node := node }
  | main {node} (hup : v.up = false) (henter : Enters v.node node) :
      Move { v with up := true, node := node }
  | arrive {t} (hout : ¬v.inWorkers t) (hbatch : ¬v.inBatchBar t)
      (hmay : v.round t = 0 ∧ v.up = true ∧ v.node.phase = .outside ∨
        1 ≤ v.round t ∧ v.round t ≤ roundsPerBatch * (v.batchNum t + 1)) :
      Move (v.stepLocal t)
  | critical {t node} (hpc : (v.localBarrier.thread t).pc = .beforeMiddle)
      (henter : Enters v.node node) :
      Move { v.stepLocal t with node := node }
  | criticalEnd {t} (hpc : (v.localBarrier.thread t).pc = .inMiddle)
      (hphase : v.node.phase = .outside) :
      Move (v.stepLocal t)
  | goOn {t} (hout : v.inWorkers t) (hbefore : (v.localBarrier.thread t).pc ≠ .beforeMiddle)
      (hin : (v.localBarrier.thread t).pc ≠ .inMiddle) :
      Move (v.stepLocal t)
  | arriveBatch {t} (hend : v.AtBatchEnd t) (hhot : t.val = 0 → v.batch = v.batchNum t + 1) :
      Move (v.stepBatch t)
  | goOnBatch {t} (hin : v.inBatchBar t) : Move (v.stepBatch t)
  | runHotPeriod {t evs} (ht : t.val = 0) (hend : v.AtBatchEnd t) (hbatch : v.batch = v.batchNum t)
      (hnone : v.hot = none) (hwaits : waits evs = waitsPerPeriod) :
      Move { v with hot := some ⟨v.round t, [], evs⟩ }
  | waitNodes {mb done todo node} (hhot : v.hot = some ⟨mb, done, .waitNodes :: todo⟩)
      (henter : Enters v.node node) :
      Move { v with hot := some ⟨mb, done ++ [.waitNodes], todo⟩, node := node }
  | sends {mb done ev todo} (hhot : v.hot = some ⟨mb, done, ev :: todo⟩) (hev : ev.isWait = false) :
      Move { v with hot := some ⟨mb, done ++ [ev], todo⟩ }
  | doneSending {mb done} (hhot : v.hot = some ⟨mb, done, []⟩) (hphase : v.node.phase = .outside) :
      Move { v with batch := v.batch + 1, pastMbNum := mb, hot := none }

end View

theorem batch_of_step {sys sys' : System} {a : System.Action} (h : sys.step c a = some sys')
    (ha : ∀ m, a ≠ .doneSending m) : sys'.batch = sys.batch := by
  rcases System.step_cases h with hmove | ⟨f, -, rfl⟩
  · cases hmove with
    | doneSending => exact absurd rfl (ha _)
    | _ => rfl
  · rfl

section Views

variable {i j : Bool} {t : Fin (n i).toNat}

theorem view_congr (hup : s'.up i = s.up i) (hlocal : s'.localBarrier i = s.localBarrier i)
    (hbatchBar : s'.batchBar i = s.batchBar i) (hbatch : s'.sys.batch i.toNat = s.sys.batch i.toNat)
    (hpast : s'.pastMbNum i = s.pastMbNum i) (hhot : s'.hot i = s.hot i) :
    s'.view i = { s.view i with node := s'.nodes i } := by
  simp only [State.view, hup, hlocal, hbatchBar, hbatch, hpast, hhot]

theorem view_stays (h : s'.view j = { s.view j with node := s'.nodes j })
    (hnode : Stays (s.nodes j) (s'.nodes j)) : (s.view j).Move (s'.view j) := by
  rw [h]
  exact .stays hnode

theorem view_stepLocal_of_ne (hj : j ≠ i) : (s.stepLocal i t).view j = s.view j := by
  simp only [State.view, State.stepLocal, Function.update_of_ne hj]

theorem view_stepLocal : (s.stepLocal i t).view i = (s.view i).stepLocal t := by
  simp only [State.view, State.stepLocal, View.stepLocal, Function.update_self]

theorem view_stepBatch_of_ne (hj : j ≠ i) : (s.stepBatch i t).view j = s.view j := by
  simp only [State.view, State.stepBatch, Function.update_of_ne hj]

theorem view_stepBatch : (s.stepBatch i t).view i = (s.view i).stepBatch t := by
  simp only [State.view, State.stepBatch, View.stepBatch, Function.update_self]

theorem view_of_system {sys : System} {a : System.Action} (h : s.sys.step c a = some sys)
    (ha : ∀ m, a ≠ .doneSending m) (j : Bool) :
    (s.view j).Move (State.view { s with sys := sys } j) :=
  view_stays (view_congr rfl rfl rfl (congrFun (batch_of_step h ha) _) rfl rfl) (.refl _)

theorem view_of_local (h : (s.view i).Move ((s.view i).stepLocal t)) (j : Bool) :
    (s.view j).Move ((s.stepLocal i t).view j) := by
  rcases eq_or_ne j i with rfl | hj
  · rwa [view_stepLocal]
  · exact view_stays (view_stepLocal_of_ne hj) (.refl _)

theorem view_of_batch (h : (s.view i).Move ((s.view i).stepBatch t)) (j : Bool) :
    (s.view j).Move ((s.stepBatch i t).view j) := by
  rcases eq_or_ne j i with rfl | hj
  · rwa [view_stepBatch]
  · exact view_stays (view_stepBatch_of_ne hj) (.refl _)

theorem view_of_hot {r : HotRun π} {sent : List (Sending π)}
    (h : (s.view i).Move { s.view i with hot := some r }) (j : Bool) :
    (s.view j).Move (State.view
      { s with hot := Function.update s.hot i (some r), sent := sent } j) := by
  rcases eq_or_ne j i with rfl | hj
  · simpa only [State.view, Function.update_self] using h
  · exact view_stays (view_congr rfl rfl rfl rfl rfl (Function.update_of_ne hj _ _)) (.refl _)

theorem atBatchEnd_view (h : s.AtBatchEnd i t) : (s.view i).AtBatchEnd t :=
  ⟨not_not.mpr h.1.1, not_not.mpr h.1.2, h.2⟩

end Views

/-- What a step does to either node. -/
theorem Move.view (h : Move c s a s') (hp : Punctual s a) (j : Bool) :
    (s.view j).Move (s'.view j) := by
  cases h with
  | @main i nodes hup hnodes =>
    rcases eq_or_ne j i with rfl | hj
    · have hmove : (s.view j).Move { s.view j with up := true, node := nodes j } :=
        .main hup (enters_of_step hnodes)
      simpa only [State.view, Function.update_self] using hmove
    · exact view_stays (view_congr (Function.update_of_ne hj _ _) rfl rfl rfl rfl rfl)
        (stays_of_peer hnodes hj)
  | call hmini hsys => exact view_of_system hsys nofun j
  | leftover hpc hsys => exact view_of_system hsys nofun j
  | exec hinner hsys =>
    refine view_of_system hsys ?_ j
    rintro m rfl
    cases hinner
  | arrive hpc hidle hbatch hmay =>
    refine view_of_local (.arrive (not_not.mpr hpc) (not_not.mpr hbatch) ?_) j
    exact hmay.imp_right fun hmini => hmini.2
  | @critical i t nodes hpc hnodes =>
    rcases eq_or_ne j i with rfl | hj
    · have hmove : (s.view j).Move { (s.view j).stepLocal t with node := nodes j } :=
        .critical hpc (enters_of_step hnodes)
      simpa only [State.view, State.stepLocal, View.stepLocal, Function.update_self] using hmove
    · exact view_stays (view_congr rfl (Function.update_of_ne hj _ _) rfl rfl rfl rfl)
        (stays_of_peer hnodes hj)
  | criticalEnd hpc hphase => exact view_of_local (.criticalEnd hpc hphase) j
  | goOn hout hbefore hin => exact view_of_local (.goOn hout hbefore hin) j
  | arriveBatch hpc hidle hend hhot =>
    exact view_of_batch (.arriveBatch (atBatchEnd_view hend) hhot) j
  | goOnBatch hpc hidle => exact view_of_batch (.goOnBatch hpc) j
  | barrier hne hnodes =>
    exact view_stays (view_congr rfl rfl rfl rfl rfl rfl) (stays_of_step hnodes hne j)
  | runHotPeriod ht hidle hend hbatch hnone hrun =>
    exact view_of_hot (.runHotPeriod ht (atBatchEnd_view hend) hbatch hnone (hp _ hrun)) j
  | @waitNodes i mb done todo nodes hhot hnodes =>
    rcases eq_or_ne j i with rfl | hj
    · have hmove : (s.view j).Move { s.view j with
          hot := some ⟨mb, done ++ [.waitNodes], todo⟩, node := nodes j } :=
            .waitNodes hhot (enters_of_step hnodes)
      simpa only [State.view, Function.update_self] using hmove
    · exact view_stays (view_congr rfl rfl rfl rfl rfl (Function.update_of_ne hj _ _))
        (stays_of_peer hnodes hj)
  | @send _ _ _ ev _ hhot hev hphase =>
    have hwait : ev.isWait = false := by
      cases ev with
      | waitNodes => exact absurd rfl hev
      | sendmsg | sendmmsg => rfl
    exact view_of_hot (.sends hhot hwait) j
  | @doneSending i mb done sys hhot hphase hsys =>
    have hbatch : sys.batch = Function.update s.sys.batch i.toNat (s.sys.batch i.toNat + 1) := by
      rcases System.step_cases hsys with hmove | ⟨f, hexec, -⟩
      · cases hmove
        rfl
      · cases hexec
    rcases eq_or_ne j i with rfl | hj
    · have hmove : (s.view j).Move { s.view j with
          batch := s.sys.batch j.toNat + 1, pastMbNum := mb, hot := none } :=
            .doneSending hhot hphase
      simpa only [State.view, Function.update_self, hbatch] using hmove
    · refine view_stays (view_congr rfl rfl rfl ?_ (Function.update_of_ne hj _ _)
        (Function.update_of_ne hj _ _)) (.refl _)
      rw [hbatch, Function.update_of_ne (by cases i <;> cases j <;> simp_all)]

/-! ### The clock of a node -/

/-- How many barriers the node has entered when round `k` of `wait_workers` leaves `critical_wait`:
one in `main`, those of the rounds up to `k`, and those of the hot periods before. -/
def roundAt (k : ℕ) : ℕ := k + 2 + waitsPerPeriod * ((k - 1) / roundsPerBatch)

section NodeOk

variable {k : UInt32} {v v' : View k π} {t u : Fin k.toNat} {node : Barrier.Node} {r : HotRun π}
  {mb : ℕ} {done todo : List (HotEvent Attempt π)} {ev : HotEvent Attempt π}

/-- The counters of a thread: in batch `batchNum` the rounds from `21 * batchNum + 1` to
`21 * (batchNum + 1) + 1`. -/
@[mk_iff] structure ThreadOk (v : View k π) (t : Fin k.toNat) : Prop where
  low : v.batchNum t = 0 ∨ roundsPerBatch * v.batchNum t + 1 ≤ v.round t
  high : v.entered t ≤ roundsPerBatch * (v.batchNum t + 1) + 1
  inside : v.inBatchBar t → ¬v.inWorkers t ∧ v.round t = roundsPerBatch * (v.batchNum t + 1) + 1

/-- The leader runs the hot period of a batch at its end, before `batch_bar`. -/
@[mk_iff] structure LeaderOk (v : View k π) (t : Fin k.toNat) : Prop where
  le : v.batchNum t ≤ v.batch ∧ v.batch ≤ v.batchNum t + 1
  done : v.batch = v.batchNum t + 1 → ¬v.inWorkers t ∧
    v.round t = roundsPerBatch * (v.batchNum t + 1) + 1
  inside : v.inBatchBar t → v.batch = v.batchNum t + 1
  hot : v.hot ≠ none → v.batch = v.batchNum t ∧ v.AtBatchEnd t

/-- A hot period with the right number of barriers. -/
structure HotOk (v : View k π) (r : HotRun π) : Prop where
  miniBatchNum : r.miniBatchNum = roundsPerBatch * (v.batch + 1) + 1
  count : waits r.done + waits r.todo = waitsPerPeriod

/-- One node: its threads, and what it uses the barrier between the nodes for. -/
structure NodeOk (v : View k π) : Prop where
  locals : RBarrier.Inv true v.localBarrier
  batches : RBarrier.Inv false v.batchBar
  threads : ∀ t, ThreadOk v t
  leader : ∀ t : Fin k.toNat, t.val = 0 → LeaderOk v t
  hot : ∀ r ∈ v.hot, HotOk v r
  up : v.up = false → ∀ t, v.entered t = 0
  past : v.pastMbNum = roundsPerBatch * v.batch + 1
  clock : v.node.entered = v.up.toNat + v.localBarrier.begun + waitsPerPeriod * v.batch + v.hotWaits
  /-- Only one of `main`, `wait_workers` and the hot period is in the barrier. -/
  user : v.node.phase ≠ .outside →
    (∀ t, v.entered t = 0) ∨ v.localBarrier.begun = v.localBarrier.ended + 1 ∨ v.hot ≠ none
  left : ∀ r < v.localBarrier.ended, roundAt r ≤ v.node.left

theorem ThreadOk.congr (h : ThreadOk v t)
    (hlocal : v'.localBarrier.thread t = v.localBarrier.thread t)
    (hbatch : v'.batchBar.thread t = v.batchBar.thread t) : ThreadOk v' t := by
  simpa only [threadOk_iff, View.batchNum, View.round, View.entered, View.inBatchBar,
    View.inWorkers, hlocal, hbatch] using h

theorem LeaderOk.congr (h : LeaderOk v t)
    (hlocal : v'.localBarrier.thread t = v.localBarrier.thread t)
    (hbatchBar : v'.batchBar.thread t = v.batchBar.thread t) (hbatch : v'.batch = v.batch)
    (hhot : v'.hot = v.hot) : LeaderOk v' t := by
  simpa only [leaderOk_iff, View.batchNum, View.round, View.inBatchBar, View.inWorkers,
    View.AtBatchEnd, hlocal, hbatchBar, hbatch, hhot] using h

theorem HotOk.congr (h : HotOk v r) (hbatch : v'.batch = v.batch) : HotOk v' r :=
  ⟨by rw [hbatch]; exact h.miniBatchNum, h.count⟩

/-! ### Rounds of `wait_workers` -/

theorem View.entered_of_outside (h : ¬v.inWorkers t) : v.entered t = v.round t :=
  if_pos (not_not.mp h)

theorem View.entered_of_inside (h : v.inWorkers t) : v.entered t = v.round t + 1 := if_neg h

theorem NodeOk.up_of_entered (h : NodeOk v) (ht : 0 < v.entered t) : v.up = true := by
  cases hup : v.up with
  | true => rfl
  | false => exact absurd (h.up hup t) (Nat.ne_of_gt ht)

/-- A thread in `wait_workers`, or before, is not behind its hot period. -/
theorem LeaderOk.of_inside (h : LeaderOk v t) (ht : v.inWorkers t) :
    v.batch = v.batchNum t ∧ v.hot = none := by
  have hle := h.le
  constructor
  · by_contra hne
    exact (h.done (by omega)).1 ht
  · by_contra hhot
    exact (h.hot hhot).2.1 ht

/-- `critical_wait` is called when nobody else is in the barrier between the nodes. -/
theorem NodeOk.outside_of_beforeMiddle (h : NodeOk v)
    (hpc : (v.localBarrier.thread t).pc = .beforeMiddle) : v.node.phase = .outside := by
  obtain ⟨hbegun, hall⟩ := RBarrier.of_beforeMiddle h.locals hpc
  by_contra hphase
  rcases h.user hphase with hzero | hone | hhot
  · have := hzero t
    rw [View.entered_of_inside (hall t)] at this
    omega
  · omega
  · -- the leader has come to the barrier too
    have hpos : 0 < k.toNat := t.pos
    have hlead := (h.leader ⟨0, hpos⟩ rfl).of_inside (hall _)
    exact hhot hlead.2

/-- Where the clock stands at the end of `critical_wait`. -/
theorem NodeOk.roundAt_le_entered (h : NodeOk v) (hpc : (v.localBarrier.thread t).pc = .inMiddle) :
    roundAt v.localBarrier.ended ≤ v.node.entered := by
  have hbegun := RBarrier.of_inMiddle h.locals hpc
  have hpos : 0 < k.toNat := t.pos
  set l : Fin k.toNat := ⟨0, hpos⟩
  -- the leader is in this round
  have hle : v.localBarrier.begun ≤ v.entered l := RBarrier.begun_le_entered h.locals l
  have hge : v.round l ≤ v.localBarrier.ended := RBarrier.round_le_ended h.locals l
  have hin : v.inWorkers l := by
    by_contra hout
    rw [View.entered_of_outside hout] at hle
    omega
  obtain ⟨hbatch, hhot⟩ := (h.leader l rfl).of_inside hin
  have hup := h.up_of_entered (t := l) (by omega)
  have hhigh := (h.threads l).high
  have hclock := h.clock
  rw [View.entered_of_inside hin] at hle hhigh
  simp only [View.hotWaits, hhot, hup, hbatch, hbegun, roundAt, roundsPerBatch_eq,
    waitsPerPeriod_eq, Bool.toNat_true, Option.elim_none] at *
  omega

/-! ### Steps of a node -/

theorem View.stepLocal_thread_of_ne (hu : u ≠ t) :
    (v.stepLocal t).localBarrier.thread u = v.localBarrier.thread u :=
  RBarrier.step_thread_of_ne hu

theorem View.stepBatch_thread_of_ne (hu : u ≠ t) :
    (v.stepBatch t).batchBar.thread u = v.batchBar.thread u :=
  RBarrier.step_thread_of_ne hu

/-- A thread that enters `wait_workers`. -/
theorem View.stepLocal_outside (h : ¬v.inWorkers t) :
    (v.stepLocal t).inWorkers t ∧ (v.stepLocal t).round t = v.round t ∧
    (v.stepLocal t).entered t = v.round t + 1 := by
  obtain ⟨hin, hround⟩ : (v.stepLocal t).inWorkers t ∧ (v.stepLocal t).round t = v.round t :=
    RBarrier.step_thread_of_outside (not_not.mp h)
  refine ⟨hin, hround, ?_⟩
  rw [View.entered_of_inside hin]
  exact congrArg (· + 1) hround

/-- A thread in `wait_workers`. -/
theorem View.stepLocal_inside (h : v.inWorkers t) :
    v.round t ≤ (v.stepLocal t).round t ∧ (v.stepLocal t).entered t = v.entered t := by
  rw [View.entered_of_inside h]
  have hstep : (v.stepLocal t).inWorkers t ∧ (v.stepLocal t).round t = v.round t ∨
      ((v.stepLocal t).localBarrier.thread t).pc = .outside ∧
      (v.stepLocal t).round t = v.round t + 1 :=
    RBarrier.step_thread_of_inside h
  rcases hstep with ⟨hin, hround⟩ | ⟨hpc, hround⟩
  · rw [View.entered_of_inside hin]
    exact ⟨hround.ge, congrArg (· + 1) hround⟩
  · have hout : ¬(v.stepLocal t).inWorkers t := not_not.mpr hpc
    rw [View.entered_of_outside hout]
    exact ⟨(Nat.le_succ _).trans hround.ge, hround⟩

theorem NodeOk.threads_stepLocal (h : NodeOk v) (ht : ThreadOk (v.stepLocal t) t)
    (u : Fin k.toNat) : ThreadOk (v.stepLocal t) u := by
  rcases eq_or_ne u t with rfl | hu
  · exact ht
  · exact (h.threads u).congr (View.stepLocal_thread_of_ne hu) rfl

theorem NodeOk.leader_stepLocal (h : NodeOk v) (ht : t.val = 0 → LeaderOk (v.stepLocal t) t)
    (u : Fin k.toNat) (hu : u.val = 0) : LeaderOk (v.stepLocal t) u := by
  rcases eq_or_ne u t with rfl | hne
  · exact ht hu
  · exact (h.leader u hu).congr (View.stepLocal_thread_of_ne hne) rfl rfl rfl

theorem NodeOk.threads_stepBatch (h : NodeOk v) (ht : ThreadOk (v.stepBatch t) t)
    (u : Fin k.toNat) : ThreadOk (v.stepBatch t) u := by
  rcases eq_or_ne u t with rfl | hu
  · exact ht
  · exact (h.threads u).congr rfl (View.stepBatch_thread_of_ne hu)

theorem NodeOk.leader_stepBatch (h : NodeOk v) (ht : t.val = 0 → LeaderOk (v.stepBatch t) t)
    (u : Fin k.toNat) (hu : u.val = 0) : LeaderOk (v.stepBatch t) u := by
  rcases eq_or_ne u t with rfl | hne
  · exact ht hu
  · exact (h.leader u hu).congr rfl (View.stepBatch_thread_of_ne hne) rfl rfl

theorem ThreadOk.stepLocal (h : ThreadOk v t) (hin : v.inWorkers t) :
    ThreadOk (v.stepLocal t) t := by
  obtain ⟨hround, hentered⟩ := View.stepLocal_inside hin
  exact ⟨h.low.imp_right hround.trans', hentered.trans_le h.high,
    fun hb => absurd hin (h.inside hb).1⟩

theorem LeaderOk.stepLocal (h : LeaderOk v t) (hin : v.inWorkers t) : LeaderOk (v.stepLocal t) t :=
  ⟨h.le, fun hd => absurd hin (h.done hd).1, h.inside, fun hhot => absurd hin (h.hot hhot).2.1⟩

/-- No thread has come, or as many as before. -/
theorem NodeOk.entered_stepLocal (hin : v.inWorkers t) (u : Fin k.toNat) :
    (v.stepLocal t).entered u = v.entered u := by
  rcases eq_or_ne u t with rfl | hu
  · exact (View.stepLocal_inside hin).2
  · exact congrArg RBarrier.Thread.entered (View.stepLocal_thread_of_ne hu)

/-- The barrier between the nodes goes on. -/
theorem NodeOk.stays (h : NodeOk v) (hnode : Stays v.node node) :
    NodeOk { v with node := node } where
  locals := h.locals
  batches := h.batches
  threads t := (h.threads t).congr rfl rfl
  leader t ht := (h.leader t ht).congr rfl rfl rfl rfl
  hot r hr := (h.hot r hr).congr rfl
  up := h.up
  past := h.past
  clock := hnode.entered.trans h.clock
  user hphase := h.user (hnode.phase hphase)
  left r hr := (h.left r hr).trans hnode.left

theorem NodeOk.main (h : NodeOk v) (hup : v.up = false) (henter : Enters v.node node) :
    NodeOk { v with up := true, node := node } where
  locals := h.locals
  batches := h.batches
  threads t := (h.threads t).congr rfl rfl
  leader t ht := (h.leader t ht).congr rfl rfl rfl rfl
  hot r hr := (h.hot r hr).congr rfl
  up hfalse := Bool.noConfusion hfalse
  past := h.past
  clock := by
    have hclock := h.clock
    have hentered := henter.entered
    rw [hup, Bool.toNat_false] at hclock
    show node.entered = true.toNat + v.localBarrier.begun + waitsPerPeriod * v.batch + v.hotWaits
    rw [Bool.toNat_true]
    omega
  user _ := .inl (h.up hup)
  left r hr := (h.left r hr).trans henter.left.ge

theorem NodeOk.arrive (h : NodeOk v) (hout : ¬v.inWorkers t) (hbatch : ¬v.inBatchBar t)
    (hmay : v.round t = 0 ∧ v.up = true ∧ v.node.phase = .outside ∨
      1 ≤ v.round t ∧ v.round t ≤ roundsPerBatch * (v.batchNum t + 1)) :
    NodeOk (v.stepLocal t) := by
  obtain ⟨hin, hround, hentered⟩ := View.stepLocal_outside hout
  have hpc : (v.localBarrier.thread t).pc = .outside := not_not.mp hout
  have hbegun := RBarrier.begun_step h.locals t
  have hended := RBarrier.ended_step h.locals t
  rw [hpc, if_neg (by decide), Nat.add_zero] at hbegun hended
  have hle : v.round t ≤ roundsPerBatch * (v.batchNum t + 1) := by
    rcases hmay with ⟨hzero, -⟩ | ⟨-, hle⟩
    · rw [hzero]
      exact Nat.zero_le _
    · exact hle
  have hpos : 1 ≤ v.round t → 0 < v.entered t := by
    rw [View.entered_of_outside hout]
    exact id
  refine ⟨(RBarrier.inv_step h.locals t).1, h.batches, h.threads_stepLocal ⟨?_, ?_, ?_⟩,
    h.leader_stepLocal fun ht => ?_, fun r hr => (h.hot r hr).congr rfl, ?_, h.past, ?_, ?_, ?_⟩
  · exact (h.threads t).low.imp_right fun hlow => hlow.trans_eq hround.symm
  · rw [hentered]
    exact Nat.succ_le_succ hle
  · exact fun hb => absurd hb hbatch
  · have hlead := h.leader t ht
    refine ⟨hlead.le, fun hd => ?_, hlead.inside, fun hhot => ?_⟩
    · have := (hlead.done hd).2
      omega
    · have := (hlead.hot hhot).2.2.2
      omega
  · intro hup
    rcases hmay with ⟨-, htrue, -⟩ | ⟨hone, -⟩
    · exact absurd (htrue.symm.trans hup) (by decide)
    · exact absurd (h.up hup t) (Nat.ne_of_gt (hpos hone))
  · exact h.clock.trans (by rw [← hbegun]; rfl)
  · intro hphase
    rcases h.user hphase with hzero | hone | hhot
    · rcases hmay with ⟨-, -, hphase'⟩ | ⟨hone, -⟩
      · exact absurd hphase' hphase
      · exact absurd (hzero t) (Nat.ne_of_gt (hpos hone))
    · exact .inr (.inl (hbegun.trans (hone.trans (congrArg (· + 1) hended.symm))))
    · exact .inr (.inr hhot)
  · intro r hr
    exact h.left r (hr.trans_eq hended)

/-- A step of a thread in `wait_workers`. -/
theorem NodeOk.stepLocal (h : NodeOk v) (hin : v.inWorkers t)
    (hclock : node.entered + v.localBarrier.begun = v.node.entered +
      (v.stepLocal t).localBarrier.begun)
    (huser : node.phase ≠ .outside → v.node.phase ≠ .outside ∧
        (v.stepLocal t).localBarrier.begun = v.localBarrier.begun ∧
        (v.stepLocal t).localBarrier.ended = v.localBarrier.ended ∨
      (v.stepLocal t).localBarrier.begun = (v.stepLocal t).localBarrier.ended + 1)
    (hleft : ∀ r < (v.stepLocal t).localBarrier.ended, roundAt r ≤ node.left) :
    NodeOk { v.stepLocal t with node := node } := by
  have hentered := NodeOk.entered_stepLocal hin
  have hc := h.clock
  have hok : ∀ u, ThreadOk (v.stepLocal t) u := h.threads_stepLocal ((h.threads t).stepLocal hin)
  have hlead : ∀ u : Fin k.toNat, u.val = 0 → LeaderOk (v.stepLocal t) u :=
    h.leader_stepLocal fun ht => (h.leader t ht).stepLocal hin
  refine ⟨(RBarrier.inv_step h.locals t).1, h.batches, fun u => (hok u).congr rfl rfl,
    fun u hu => (hlead u hu).congr rfl rfl rfl rfl, fun r hr => (h.hot r hr).congr rfl,
    fun hup u => (hentered u).trans (h.up hup u), h.past, ?_, fun hphase => ?_, hleft⟩
  · show node.entered = v.up.toNat + (v.stepLocal t).localBarrier.begun + waitsPerPeriod *
      v.batch + v.hotWaits
    omega
  · rcases huser hphase with ⟨hphase', hbegun, hended⟩ | hone
    · rcases h.user hphase' with hzero | hone | hhot
      · exact .inl fun u => (hentered u).trans (hzero u)
      · exact .inr (.inl (hbegun.trans (hone.trans (congrArg (· + 1) hended.symm))))
      · exact .inr (.inr hhot)
    · exact .inr (.inl hone)

theorem NodeOk.critical (h : NodeOk v) (hpc : (v.localBarrier.thread t).pc = .beforeMiddle)
    (henter : Enters v.node node) : NodeOk { v.stepLocal t with node := node } := by
  have hbegun : (v.stepLocal t).localBarrier.begun = _ := RBarrier.begun_step h.locals t
  have hended : (v.stepLocal t).localBarrier.ended = _ := RBarrier.ended_step h.locals t
  have hentered := henter.entered
  have heq := (RBarrier.of_beforeMiddle h.locals hpc).1
  rw [hpc, if_pos rfl] at hbegun
  rw [hpc, if_neg (by decide)] at hended
  refine h.stepLocal (fun hout => by rw [hpc] at hout; cases hout) (by omega)
    (fun _ => .inr (by omega)) fun r hr => ?_
  exact (h.left r (by omega)).trans henter.left.ge

theorem NodeOk.criticalEnd (h : NodeOk v)
    (hnode : v.node.phase = .outside → v.node.entered = v.node.left)
    (hpc : (v.localBarrier.thread t).pc = .inMiddle) (hphase : v.node.phase = .outside) :
    NodeOk (v.stepLocal t) := by
  have hbegun : (v.stepLocal t).localBarrier.begun = _ := RBarrier.begun_step h.locals t
  have hended : (v.stepLocal t).localBarrier.ended = _ := RBarrier.ended_step h.locals t
  rw [hpc, if_neg (by decide)] at hbegun
  rw [hpc, if_pos rfl] at hended
  refine h.stepLocal (fun hout => by rw [hpc] at hout; cases hout) (by omega)
    (fun hne => absurd hphase hne) fun r hr => ?_
  -- the round that ends is the last one
  rcases Nat.lt_or_ge r v.localBarrier.ended with hlt | hge
  · exact h.left r hlt
  · obtain rfl : r = v.localBarrier.ended := by omega
    exact (h.roundAt_le_entered hpc).trans_eq (hnode hphase)

theorem NodeOk.goOn (h : NodeOk v) (hin : v.inWorkers t)
    (hbefore : (v.localBarrier.thread t).pc ≠ .beforeMiddle)
    (hmiddle : (v.localBarrier.thread t).pc ≠ .inMiddle) : NodeOk (v.stepLocal t) := by
  have hbegun : (v.stepLocal t).localBarrier.begun = _ := RBarrier.begun_step h.locals t
  have hended : (v.stepLocal t).localBarrier.ended = _ := RBarrier.ended_step h.locals t
  rw [if_neg hbefore] at hbegun
  rw [if_neg hmiddle] at hended
  exact h.stepLocal hin (by omega) (fun hphase => .inl ⟨hphase, hbegun, hended⟩) fun r hr =>
    h.left r (hr.trans_eq hended)

/-- A step of a thread in `batch_bar`. -/
theorem NodeOk.stepBatch (h : NodeOk v) (ht : ThreadOk (v.stepBatch t) t)
    (hlead : t.val = 0 → LeaderOk (v.stepBatch t) t) : NodeOk (v.stepBatch t) where
  locals := h.locals
  batches := (RBarrier.inv_step h.batches t).1
  threads := h.threads_stepBatch ht
  leader := h.leader_stepBatch hlead
  hot r hr := (h.hot r hr).congr rfl
  up := h.up
  past := h.past
  clock := h.clock
  user := h.user
  left := h.left

theorem NodeOk.arriveBatch (h : NodeOk v) (hend : v.AtBatchEnd t)
    (hhot : t.val = 0 → v.batch = v.batchNum t + 1) : NodeOk (v.stepBatch t) := by
  obtain ⟨-, hround⟩ : (v.stepBatch t).inBatchBar t ∧ (v.stepBatch t).batchNum t = v.batchNum t :=
    RBarrier.step_thread_of_outside (not_not.mp hend.2.1)
  refine h.stepBatch ⟨?_, ?_, fun _ => ?_⟩ fun ht => ?_
  · rw [hround]
    exact (h.threads t).low
  · rw [hround]
    exact (h.threads t).high
  · rw [hround]
    exact ⟨hend.1, hend.2.2⟩
  · have hlead := h.leader t ht
    have hbatch := hhot ht
    refine ⟨?_, ?_, fun _ => ?_, fun hne => ?_⟩
    · rw [hround]
      exact hlead.le
    · rw [hround]
      exact hlead.done
    · rw [hround]
      exact hbatch
    · have := (hlead.hot hne).1
      omega

theorem NodeOk.goOnBatch (h : NodeOk v) (hin : v.inBatchBar t) : NodeOk (v.stepBatch t) := by
  have hthread := h.threads t
  obtain ⟨hworkers, hround⟩ := hthread.inside hin
  have hhigh := hthread.high
  have hstep : (v.stepBatch t).inBatchBar t ∧ (v.stepBatch t).batchNum t = v.batchNum t ∨
      ((v.stepBatch t).batchBar.thread t).pc = .outside ∧
      (v.stepBatch t).batchNum t = v.batchNum t + 1 :=
    RBarrier.step_thread_of_inside hin
  rcases hstep with ⟨-, hnum⟩ | ⟨hpc, hnum⟩
  · -- the thread stays in the barrier
    refine h.stepBatch ?_ fun ht => ?_
    · rw [threadOk_iff, hnum]
      exact ⟨hthread.low, hhigh, fun _ => ⟨hworkers, hround⟩⟩
    · have hlead := h.leader t ht
      have hbatch := hlead.inside hin
      rw [leaderOk_iff, hnum]
      exact ⟨hlead.le, hlead.done, fun _ => hbatch, fun hne => absurd hin (hlead.hot hne).2.2.1⟩
  · -- the thread begins the next batch
    have hout : ¬(v.stepBatch t).inBatchBar t := not_not.mpr hpc
    refine h.stepBatch ?_ fun ht => ?_
    · rw [threadOk_iff, hnum]
      refine ⟨.inr hround.ge, hhigh.trans ?_, fun hb => absurd hb hout⟩
      rw [roundsPerBatch_eq]
      omega
    · have hlead := h.leader t ht
      have hbatch : (v.stepBatch t).batch = _ := hlead.inside hin
      rw [leaderOk_iff, hnum, hbatch]
      exact ⟨⟨Nat.le_refl _, Nat.le_succ _⟩, fun hd => absurd hd (by omega),
        fun hb => absurd hb hout, fun hne => absurd hin (hlead.hot hne).2.2.1⟩

/-- A step in the hot period of a batch. -/
theorem NodeOk.setHot (h : NodeOk v) (node : Barrier.Node)
    (hlead : ∀ t : Fin k.toNat, t.val = 0 → v.batch = v.batchNum t ∧ v.AtBatchEnd t)
    (hr : HotOk v r) (hclock : node.entered + v.hotWaits = v.node.entered + waits r.done)
    (hleft : node.left = v.node.left) : NodeOk { v with hot := some r, node := node } where
  locals := h.locals
  batches := h.batches
  threads t := (h.threads t).congr rfl rfl
  leader t ht := by
    have hlead' := h.leader t ht
    exact ⟨hlead'.le, hlead'.done, hlead'.inside, fun _ => hlead t ht⟩
  hot r' hr' := by
    obtain rfl := Option.some.inj hr'
    exact hr.congr rfl
  up := h.up
  past := h.past
  clock := by
    have hc := h.clock
    show node.entered = v.up.toNat + v.localBarrier.begun + waitsPerPeriod * v.batch + waits r.done
    omega
  user _ := .inr (.inr nofun)
  left j hj := (h.left j hj).trans hleft.ge

theorem NodeOk.runHotPeriod (h : NodeOk v) {evs : List (HotEvent Attempt π)} (ht : t.val = 0)
    (hend : v.AtBatchEnd t) (hbatch : v.batch = v.batchNum t) (hnone : v.hot = none)
    (hwaits : waits evs = waitsPerPeriod) : NodeOk { v with hot := some ⟨v.round t, [], evs⟩ } := by
  have hlead : ∀ u : Fin k.toNat, u.val = 0 → v.batch = v.batchNum u ∧ v.AtBatchEnd u := by
    intro u hu
    obtain rfl : u = t := Fin.ext (hu.trans ht.symm)
    exact ⟨hbatch, hend⟩
  refine h.setHot v.node hlead ⟨?_, ?_⟩ ?_ rfl
  · rw [hbatch]
    exact hend.2.2
  · rw [hwaits]
    exact Nat.zero_add _
  · rw [View.hotWaits, hnone]
    rfl

/-- The next event. -/
theorem HotOk.next (h : HotOk v ⟨mb, done, ev :: todo⟩) : HotOk v ⟨mb, done ++ [ev], todo⟩ := by
  refine ⟨h.miniBatchNum, ?_⟩
  have hw : waits done + waits ([ev] ++ todo) = waitsPerPeriod := h.count
  show waits (done ++ [ev]) + waits todo = waitsPerPeriod
  rw [HotPeriod.waits_append] at hw ⊢
  omega

theorem NodeOk.hot_leader (h : NodeOk v) (hhot : v.hot = some r) (t : Fin k.toNat)
    (ht : t.val = 0) : v.batch = v.batchNum t ∧ v.AtBatchEnd t := by
  refine (h.leader t ht).hot ?_
  rw [hhot]
  exact nofun

theorem NodeOk.waitNodes (h : NodeOk v) (hhot : v.hot = some ⟨mb, done, .waitNodes :: todo⟩)
    (henter : Enters v.node node) :
    NodeOk { v with hot := some ⟨mb, done ++ [.waitNodes], todo⟩, node := node } := by
  refine h.setHot node (h.hot_leader hhot) (h.hot _ hhot).next ?_ henter.left
  have hone : waits [(HotEvent.waitNodes : HotEvent Attempt π)] = 1 := rfl
  have hentered := henter.entered
  simp only [View.hotWaits, hhot, HotPeriod.waits_append, hone, Option.elim_some]
  omega

theorem NodeOk.sends (h : NodeOk v) (hhot : v.hot = some ⟨mb, done, ev :: todo⟩)
    (hev : ev.isWait = false) : NodeOk { v with hot := some ⟨mb, done ++ [ev], todo⟩ } := by
  refine h.setHot v.node (h.hot_leader hhot) (h.hot _ hhot).next ?_ rfl
  have hzero : waits [ev] = 0 := List.countP_eq_zero.mpr (by simpa using hev)
  simp only [View.hotWaits, hhot, HotPeriod.waits_append, hzero, Option.elim_some, Nat.add_zero]

theorem NodeOk.doneSending (h : NodeOk v) (hhot : v.hot = some ⟨mb, done, []⟩)
    (hphase : v.node.phase = .outside) :
    NodeOk ({ v with batch := v.batch + 1, pastMbNum := mb, hot := none } : View k π) where
  locals := h.locals
  batches := h.batches
  threads t := (h.threads t).congr rfl rfl
  leader t ht := by
    obtain ⟨hbatch, hout, hbar, hround⟩ := h.hot_leader hhot t ht
    have hbatch' : v.batch + 1 = v.batchNum t + 1 := congrArg (· + 1) hbatch
    exact ⟨⟨(Nat.le_succ _).trans hbatch'.ge, hbatch'.le⟩, fun _ => ⟨hout, hround⟩,
      fun _ => hbatch', nofun⟩
  hot := nofun
  up := h.up
  past := (h.hot _ hhot).miniBatchNum
  clock := by
    have hc := h.clock
    have hw : waits done + 0 = waitsPerPeriod := (h.hot _ hhot).count
    simp only [View.hotWaits, hhot, Option.elim_some] at hc
    show v.node.entered = v.up.toNat + v.localBarrier.begun + waitsPerPeriod * (v.batch + 1) + 0
    rw [Nat.mul_succ]
    omega
  user hne := absurd hphase hne
  left := h.left

/-- Every step of either node. -/
theorem NodeOk.move (h : NodeOk v) (hnode : v.node.phase = .outside → v.node.entered = v.node.left)
    (hmove : v.Move v') : NodeOk v' := by
  cases hmove with
  | stays hnode => exact h.stays hnode
  | main hup henter => exact h.main hup henter
  | arrive hout hbatch hmay => exact h.arrive hout hbatch hmay
  | critical hpc henter => exact h.critical hpc henter
  | criticalEnd hpc hphase => exact h.criticalEnd hnode hpc hphase
  | goOn hin hbefore hmiddle => exact h.goOn hin hbefore hmiddle
  | arriveBatch hend hhot => exact h.arriveBatch hend hhot
  | goOnBatch hin => exact h.goOnBatch hin
  | runHotPeriod ht hend hbatch hnone hwaits => exact h.runHotPeriod ht hend hbatch hnone hwaits
  | waitNodes hhot henter => exact h.waitNodes hhot henter
  | sends hhot hev => exact h.sends hhot hev
  | doneSending hhot hphase => exact h.doneSending hhot hphase

/-- While a round has not begun here, the clock shows less than at its end. -/
theorem NodeOk.entered_lt_roundAt (h : NodeOk v) (hpos : 0 < k.toNat) {r : ℕ}
    (hr : v.localBarrier.begun ≤ r) : v.node.entered < roundAt r := by
  set l : Fin k.toNat := ⟨0, hpos⟩
  have hlead : LeaderOk v l := h.leader l rfl
  have hround : v.round l ≤ r :=
    (RBarrier.round_le_ended h.locals l).trans ((RBarrier.ended_le_begun h.locals).1.trans hr)
  have hup : v.up.toNat ≤ 1 := Bool.toNat_le _
  have hle := hlead.le
  have hlow := (h.threads l).low
  have hclock := h.clock
  cases hhot : v.hot with
  | some run =>
    -- the leader is behind all rounds of the batch
    obtain ⟨hbatch, -, -, hend⟩ := h.hot_leader hhot l rfl
    have hcount := (h.hot run hhot).count
    simp only [View.hotWaits, hhot, Option.elim_some, roundAt, roundsPerBatch_eq,
      waitsPerPeriod_eq] at *
    omega
  | none =>
    have hdone := hlead.done
    simp only [View.hotWaits, hhot, Option.elim_none, roundAt, roundsPerBatch_eq,
      waitsPerPeriod_eq] at *
    rcases Nat.lt_or_ge v.batch (v.batchNum l + 1) with hlt | hge
    · omega
    · have := (hdone (by omega)).2
      omega

end NodeOk

/-! ### Both nodes -/

/-- The barriers are in order. -/
structure BarriersOk (s : State n π) : Prop where
  nodes : Barrier.Inv s.nodes
  node : ∀ i, NodeOk (s.view i)

/-- Nobody has left a barrier that a node has not entered. -/
theorem BarriersOk.left_le (h : BarriersOk s) (i j : Bool) :
    (s.nodes j).left ≤ (s.nodes i).entered := by
  rcases eq_or_ne j i with rfl | hne
  · have hentered := (h.nodes j).entered_eq
    split_ifs at hentered <;> omega
  · rw [Bool.eq_not_of_ne hne]
    have hle := (h.nodes !i).left_le_peer
    rwa [Bool.not_not] at hle

theorem nodes_of_move (h : Move c s a s') :
    s'.nodes = s.nodes ∨ ∃ b, Barrier.step s.nodes b = some s'.nodes := by
  cases h with
  | main _ hnodes => exact .inr ⟨_, hnodes⟩
  | critical _ hnodes => exact .inr ⟨_, hnodes⟩
  | waitNodes _ hnodes => exact .inr ⟨_, hnodes⟩
  | barrier _ hnodes => exact .inr ⟨_, hnodes⟩
  | _ => exact .inl rfl

theorem BarriersOk.move (h : BarriersOk s) (hp : Punctual s a) (hmove : Move c s a s') :
    BarriersOk s' := by
  constructor
  · rcases nodes_of_move hmove with heq | ⟨b, hb⟩
    · rw [heq]
      exact h.nodes
    · exact Barrier.step_inv h.nodes hb
  · intro i
    refine (h.node i).move (fun hphase => ?_) (hmove.view hp i)
    have hentered := (h.nodes i).entered_eq
    have hphase : (s.nodes i).phase = .outside := hphase
    rwa [hphase, if_neg (by decide)] at hentered

theorem nodeOk_init (value : ℕ → DbKey → BitVec 32) (mem : ℕ → ℕ → HotTxnEntry Attempt) (i : Bool) :
    NodeOk ((State.init value mem : State n π).view i) where
  locals := ⟨0, .inl RBarrier.gather_init⟩
  batches := ⟨0, .inl RBarrier.gather_init⟩
  threads _ := ⟨.inl rfl, Nat.zero_le _, fun hin => absurd rfl hin⟩
  leader _ _ := ⟨⟨Nat.le_refl _, Nat.zero_le _⟩, nofun, fun hin => absurd rfl hin,
    fun hne => absurd rfl hne⟩
  hot := nofun
  up _ _ := rfl
  past := rfl
  clock := by
    show 0 = 0 + 0 / 2 + waitsPerPeriod * 0 + 0
    rw [Nat.mul_zero]
  user hphase := absurd rfl hphase
  left r hr := absurd (show r < 0 / 2 from hr) (Nat.not_lt_zero r)

theorem barriersOk_init (value : ℕ → DbKey → BitVec 32) (mem : ℕ → ℕ → HotTxnEntry Attempt) :
    BarriersOk (State.init value mem : State n π) :=
  ⟨Barrier.init_inv, nodeOk_init value mem⟩

/-- **`wait_workers` is a barrier for the threads of both nodes**: a thread leaves it for the `r`-th
time only when all threads have entered it `r` times. -/
theorem BarriersOk.round_le_entered (h : BarriersOk s) (i : Bool) (t : Fin (n i).toNat) (j : Bool)
    (u : Fin (n j).toNat) : s.round i t ≤ s.entered j u := by
  rcases eq_or_ne j i with rfl | hj
  · exact RBarrier.round_le_entered (h.node j).locals t u
  · obtain rfl : j = !i := Bool.eq_not_of_ne hj
    have hended : s.round i t ≤ (s.localBarrier i).ended :=
      RBarrier.round_le_ended (h.node i).locals t
    have hbegun : (s.localBarrier !i).begun ≤ s.entered (!i) u :=
      RBarrier.begun_le_entered (h.node !i).locals u
    by_contra hlt
    -- the last round that the thread has left ended when the peer had entered the barrier for it
    have hlt' : s.round i t - 1 < (s.localBarrier i).ended := by omega
    have hleft : roundAt (s.round i t - 1) ≤ (s.nodes i).left := (h.node i).left _ hlt'
    have hpeer : (s.nodes i).left ≤ (s.nodes !i).entered := (h.nodes i).left_le_peer
    have hclock : (s.nodes !i).entered < roundAt (s.round i t - 1) :=
      (h.node !i).entered_lt_roundAt u.pos (by show (s.localBarrier !i).begun ≤ _; omega)
    omega

end P4db.Lockstep
