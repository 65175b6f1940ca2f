import P4db.Algorithm.Transition
import P4db.FastLayout.Equiv.Switch

/-!
# Runs of the simulated switch

Every call keeps the relation to the pipeline, so what holds of the pipeline holds of the switch.

* `no_work_lost`: a slot that has been allocated is in one input buffer, parser, stage or egress
  queue; a transaction is returned at most once, and if it is returned with success, it has made
  each of its accesses once, pass after pass.  A pass that does not exist is never looked up.
* `whole_pipe_serializable`: the accesses are conflict serializable, in the order in which the
  transactions were first let in.  Between its first pass and its last one, a transaction is the
  only one that makes accesses.
-/

namespace P4db.FastLayout

open Placement Pipeline

namespace SimSwitch

variable {s s' : SimSwitch} {a b : Pipeline} {spot : ℕ → Option Spot}

/-! ### The other calls -/

theorem portToGroup_lt {port : ℕ} (h : port < nPorts) : portToGroup port < 1 + nPortGroups := by
  have hdiv : port / (nPorts / nPortGroups) < nPortGroups := by
    rw [Nat.div_lt_iff_lt_mul (by decide)]
    exact h
  exact Nat.lt_of_lt_of_le hdiv (by decide)

/-- A slot of the free list takes a new transaction. -/
theorem Refines.accept {slot : ℕ} {rest : List ℕ} {t : SwTxn} (h : Refines s spot a)
    (hfree : s.freeList = slot :: rest) (hport : t.port < nPorts) (hid : t.id = s.incrId) :
    Refines { s with
        incrId := s.incrId + 1
        freeList := rest
        pool := Function.update s.pool slot t
        ipb := Function.update s.ipb (portToGroup t.port) (s.ipb (portToGroup t.port) ++ [slot])
        accepted := s.accepted ++ [t] }
      (Function.update spot slot (some (.ipb (portToGroup t.port))))
      { a with
        place := Function.update a.place t.id .waiting, txn := Function.update a.txn t.id t } := by
  set b : Pipeline :=
    { a with place := Function.update a.place t.id .waiting, txn := Function.update a.txn t.id t }
    with hb
  set g := portToGroup t.port with hg
  have hc : Changes a b t.id .waiting t := ⟨rfl, rfl⟩
  have hlen : t.id = s.accepted.length + 1 := hid.trans h.incrId
  have hfresh : a.place t.id = .fresh := (h.fresh t.id).mpr (.inr (by omega))
  have hexists : (Spot.ipb g).Exists := portToGroup_lt hport
  set next : SimSwitch := { s with
    incrId := s.incrId + 1
    freeList := rest
    pool := Function.update s.pool slot t
    ipb := Function.update s.ipb g (s.ipb g ++ [slot])
    accepted := s.accepted ++ [t] } with hnext
  have hqueue : next.queue = Function.update (Function.update s.queue .free rest) (.ipb g)
      (s.queue (.ipb g) ++ [slot]) := by
    refine (queue_ipb { s with freeList := rest } g (s.ipb g ++ [slot])).trans ?_
    rw [queue_freeList]
    rfl
  have hl : (s.queue .free).Perm (slot :: rest) := by
    show s.freeList.Perm (slot :: rest)
    rw [hfree]
  obtain ⟨hslot, hspots'⟩ :=
    h.toSpots.move (by simp) hexists hl (List.perm_append_singleton ..) hqueue
  have hnames : Names next (Function.update spot slot (some (.ipb g))) b := by
    apply h.toNames.change h.toSpots hspots' hslot _ hc
    case hold => exact fun hk => absurd rfl hk
    case hother =>
      -- the number is new
      intro y l _ hl hlfree heq
      have hplace := h.place hl hlfree
      rw [heq, hfresh] at hplace
      exact (Spot.place_ne hlfree).1 hplace.symm
    case hnew => exact fun _ => ⟨Function.update_self .., rfl, rfl, hport⟩
    case hstage => exact fun i hi => absurd hi (by simp)
    case hsuccess => exact h.success_of_ne hslot (by simp) t
    · exact fun hy => Function.update_of_ne hy ..
  refine ⟨hspots', hnames, ?_, h.holder, h.history, h.order, h.store⟩
  have haccepted : next.accepted.length = s.accepted.length + 1 := List.length_append
  constructor
  case fresh =>
    -- the numbers are given out in order, from one
    intro n
    rw [haccepted]
    by_cases hnt : n = t.id
    · subst hnt
      rw [hc.place_self]
      exact iff_of_false (by simp) (by omega)
    · rw [hc.place_of_ne hnt, h.fresh]
      omega
  case incrId =>
    rw [haccepted, ← h.incrId]
  case accepted =>
    intro k u hu
    change (s.accepted ++ [t])[k]? = some u at hu
    rcases Nat.lt_or_ge k s.accepted.length with hk | hk
    · rw [List.getElem?_append_left hk] at hu
      rw [hc.txn_of_ne (by omega)]
      exact h.accepted hu
    · rw [List.getElem?_append_right hk, List.getElem?_singleton] at hu
      split_ifs at hu with hk'
      have hkt : k + 1 = t.id := by omega
      rw [← Option.some.inj hu, hkt, hc.txn_self]
      exact ⟨rfl, rfl⟩
  case returned =>
    intro ok n hn
    obtain ⟨hdone, hok⟩ := h.returned hn
    have hnt : n ≠ t.id := by
      rintro rfl
      exact absurd (hfresh.symm.trans hdone) (by simp)
    rw [hc.place_of_ne hnt, hc.txn_of_ne hnt]
    exact ⟨hdone, hok⟩
  case once => exact h.once

/-- **`send`** is a move, if there is room. -/
theorem Refines.send {txn : SwTxn} {res : Bool × SimSwitch} (h : Refines s spot a)
    (hct : txn.passCt = 0) (heq : s.send txn = some res) :
    ∃ spot' b, Relation.ReflTransGen Move a b ∧ Refines res.2 spot' b := by
  unfold SimSwitch.send at heq
  rw [Option.ite_none_right_eq_some] at heq
  obtain ⟨⟨hpasses, hport⟩, heq⟩ := heq
  split_ifs at heq with hroom
  · cases hfree : s.freeList with
    | nil =>
      rw [hfree] at heq
      exact absurd heq (by simp)
    | cons slot rest =>
      rw [hfree] at heq
      obtain rfl := Option.some.inj heq
      have hnew : a.place s.incrId = .fresh :=
        (h.fresh s.incrId).mpr (.inr (by rw [h.incrId]; omega))
      have hmove : Move a { a with
          place := Function.update a.place s.incrId .waiting
          txn := Function.update a.txn s.incrId { txn with id := s.incrId } } :=
            .accept hnew hct hpasses
      exact ⟨_, _, .single hmove, h.accept (t := { txn with id := s.incrId }) hfree hport rfl⟩
  · obtain rfl := Option.some.inj heq
    exact ⟨spot, a, .refl, h⟩

/-- A slot of the egress is freed. -/
theorem Refines.finish {port slot : ℕ} {ok : Bool} {rest : List (Bool × ℕ)} (h : Refines s spot a)
    (hegress : s.egress port = (ok, slot) :: rest) :
    Refines { s with
        egress := Function.update s.egress port rest
        freeList := slot :: s.freeList
        returned := s.returned ++ [(ok, (s.pool slot).id)] }
      (Function.update spot slot (some .free))
      { a with place := Function.update a.place (s.pool slot).id .done } := by
  set n := (s.pool slot).id with hn
  set b : Pipeline := { a with place := Function.update a.place n .done } with hb
  have hc : Changes a b n .done (a.txn n) := ⟨rfl, (Function.update_eq_self n a.txn).symm⟩
  set next : SimSwitch := { s with
    egress := Function.update s.egress port rest
    freeList := slot :: s.freeList
    returned := s.returned ++ [(ok, n)] } with hnext
  have hqueue : next.queue =
      Function.update (Function.update s.queue (.egress port) (rest.map Prod.snd)) .free
      (slot :: s.queue .free) := by
    refine (queue_freeList { s with egress := Function.update s.egress port rest }
      (slot :: s.freeList)).trans ?_
    rw [queue_egress]
    rfl
  have hl : (s.queue (.egress port)).Perm (slot :: rest.map Prod.snd) := by
    show ((s.egress port).map Prod.snd).Perm (slot :: rest.map Prod.snd)
    rw [hegress]
    exact List.Perm.refl _
  have hexists : Spot.free.Exists := trivial
  obtain ⟨hslot, hspots'⟩ := h.toSpots.move (by simp) hexists hl (List.Perm.refl _) hqueue
  have hmem : (ok, slot) ∈ s.egress port := by
    rw [hegress]
    exact List.mem_cons_self
  have hout : a.place n = .out := h.place hslot (by simp)
  have hnames : Names next (Function.update spot slot (some .free)) b := by
    apply h.toNames.change h.toSpots hspots' hslot _ hc
    case hold => exact fun _ => rfl
    case hother => exact fun hy hl hfree heq => hy (h.inj hl hfree hslot (by simp) heq)
    -- the slot is free: it stands for no transaction any more
    case hnew => exact fun hk => absurd rfl hk
    case hstage => exact fun i hi => absurd hi (by simp)
    case hsuccess =>
      intro p ok' y hy
      change (ok', y) ∈ Function.update s.egress port rest p at hy
      by_cases hp : p = port
      · subst hp
        rw [Function.update_self] at hy
        have hy' : (ok', y) ∈ s.egress p := by
          rw [hegress]
          exact List.mem_cons_of_mem _ hy
        exact h.success hy'
      · rw [Function.update_of_ne hp] at hy
        exact h.success hy
    · exact fun _ => rfl
  refine ⟨hspots', hnames, ?_, h.holder, h.history, h.order, h.store⟩
  constructor
  case fresh =>
    intro m
    by_cases hmn : m = n
    · rw [hmn, hc.place_self, ← h.fresh, hout]
      simp
    · rw [hc.place_of_ne hmn]
      exact h.fresh m
  case incrId => exact h.incrId
  case accepted => exact h.accepted
  case returned =>
    intro ok' m hm
    rcases List.mem_append.mp hm with hm | hm
    · -- who was returned before was done, and this one was still out
      obtain ⟨hdone, hok⟩ := h.returned hm
      have hmn : m ≠ n := by
        rintro rfl
        exact absurd (hout.symm.trans hdone) (by simp)
      rw [hc.place_of_ne hmn]
      exact ⟨hdone, hok⟩
    · obtain ⟨rfl, rfl⟩ := Prod.mk.inj (List.mem_singleton.mp hm)
      refine ⟨hc.place_self, ?_⟩
      show ok' = true ↔ (a.txn n).passCt = (a.txn n).passes.length
      rw [h.txn hslot (by simp)]
      exact h.success hmem
  case once =>
    rw [List.map_append, List.map_singleton, ← List.concat_eq_append]
    apply h.once.concat
    intro hmem'
    obtain ⟨⟨ok', m⟩, hm, heq⟩ := List.mem_map.mp hmem'
    have hdone := (h.returned hm).1
    rw [show m = n from heq, hout] at hdone
    exact absurd hdone (by simp)

/-- **`recv`** is a move, if there is something to return. -/
theorem Refines.recv {port : ℕ} {res : Option (Bool × ℕ) × SimSwitch} (h : Refines s spot a)
    (heq : s.recv port = some res) :
    ∃ spot' b, Relation.ReflTransGen Move a b ∧ Refines res.2 spot' b := by
  unfold SimSwitch.recv at heq
  rw [Option.ite_none_right_eq_some] at heq
  obtain ⟨-, heq⟩ := heq
  cases hegress : s.egress port with
  | nil =>
    rw [hegress] at heq
    obtain rfl := Option.some.inj heq
    exact ⟨spot, a, .refl, h⟩
  | cons first rest =>
    obtain ⟨ok, slot⟩ := first
    rw [hegress] at heq
    obtain rfl := Option.some.inj heq
    have hslot : spot slot = some (.egress port) := by
      rw [← h.placed.mem_iff]
      show slot ∈ (s.egress port).map Prod.snd
      rw [hegress]
      exact List.mem_cons_self
    exact ⟨_, _, .single (.finish (h.place hslot (by simp))), h.finish hegress⟩

/-! ### Runs -/

/-- The switch is a pipeline in which the lock is kept and no work is lost. -/
structure Inv (s : SimSwitch) (spot : ℕ → Option Spot) (a : Pipeline) : Prop where
  refines : Refines s spot a
  work : a.Work
  locking : a.Locking
  sorted : a.Sorted

theorem Inv.moves {spot' : ℕ → Option Spot} (h : Inv s spot a)
    (hmoves : Relation.ReflTransGen Move a b) (h' : Refines s' spot' b) : Inv s' spot' b := by
  have hb : b.Work ∧ b.Locking ∧ b.Sorted := by
    clear h'
    induction hmoves with
    | refl => exact ⟨h.work, h.locking, h.sorted⟩
    | tail _ hm ih => exact ⟨ih.1.move hm, ih.2.1.move ih.1 hm, ih.2.2.move ih.2.1 hm⟩
  exact ⟨h', hb.1, hb.2.1, hb.2.2⟩

theorem queue_free (s : SimSwitch) : s.queue .free = s.freeList := rfl

theorem init_freeList (pool : ℕ → SwTxn) : (init pool).freeList = List.range poolSize :=
  by simp only [init]

theorem spots_init (pool : ℕ → SwTxn) :
    Spots (init pool) fun x => if x < poolSize then some .free else none := by
  constructor
  case placed =>
    intro x k
    cases k with
    | free =>
      have hcount : ((init pool).queue .free).count x = if x < poolSize then 1 else 0 := by
        rw [queue_free, init_freeList, List.nodup_range.count]
        simp only [List.mem_range]
      rw [hcount]
      beta_reduce
      by_cases hx : x < poolSize
      · rw [if_pos hx, if_pos hx, if_pos rfl]
      · rw [if_neg hx, if_neg hx, if_neg (by simp)]
    | _ =>
      show List.count x [] = _
      rw [List.count_nil]
      split_ifs with hx <;> simp_all
  case exists_spot =>
    intro x k hk
    split_ifs at hk
    exact Option.some.inj hk ▸ trivial
  case slot =>
    intro x
    split_ifs with hx <;> simp [hx]

theorem refines_init (pool : ℕ → SwTxn) :
    Refines (init pool) (fun x => if x < poolSize then some .free else none)
      ⟨fun _ => .fresh, pool, none, [], []⟩ := by
  have hspot : ∀ {x : ℕ} {k : Spot}, (if x < poolSize then some Spot.free else none) = some k →
      k = .free := by
    intro x k hk
    split_ifs at hk
    exact (Option.some.inj hk).symm
  refine ⟨spots_init pool, ?_, ?_, rfl, rfl, rfl, trivial, rfl⟩
  · constructor
    case place => exact fun hk hfree => absurd (hspot hk) hfree
    case txn => exact fun hk hfree => absurd (hspot hk) hfree
    case port => exact fun hk hfree => absurd (hspot hk) hfree
    case inj => exact fun hk hfree => absurd (hspot hk) hfree
    case stage => exact fun hn => absurd hn (by simp)
    case success => exact fun hy => absurd hy List.not_mem_nil
  · constructor
    case fresh => exact fun n => iff_of_true rfl (by show n = 0 ∨ 0 < n; omega)
    case incrId => rfl
    case accepted => exact fun hk => absurd hk (by simp [init])
    case returned => exact fun hn => absurd hn List.not_mem_nil
    case once => exact List.nodup_nil

theorem inv_init (pool : ℕ → SwTxn) :
    Inv (init pool) (fun x => if x < poolSize then some .free else none)
      ⟨fun _ => .fresh, pool, none, [], []⟩ := by
  refine ⟨refines_init pool, fun n => rfl, ?_, ?_⟩
  · constructor
    case unique => exact fun hn => absurd hn (by simp)
    case outside => exact fun _ => List.not_mem_nil
    case inside => exact fun hn => absurd hn.1 (by simp)
    case again => exact fun hn => absurd hn (by simp)
    case more => exact fun hn => absurd hn.1 (by simp)
    case valid => exact fun hn => absurd hn (by simp)
    case holder => exact fun hn => absurd hn (by simp)
    case last => exact fun hn => absurd hn (by simp)
  · constructor
    case nodup => exact List.nodup_nil
    case known => exact fun o ho => absurd ho List.not_mem_nil
    case behind => exact fun hn => absurd hn.1 (by simp)
    case ahead => exact fun hn => absurd hn.1 (by simp)
    case ordered => exact fun x y hxy => absurd (hxy.subset List.mem_cons_self) List.not_mem_nil

theorem exists_inv_step {c : Call} (h : Inv s spot a) (hstep : s.step c = some s') :
    ∃ spot' b, Inv s' spot' b := by
  cases c with
  | send txn =>
    unfold step at hstep
    rw [Option.ite_none_right_eq_some] at hstep
    obtain ⟨hct, hstep⟩ := hstep
    obtain ⟨res, hres, rfl⟩ := Option.map_eq_some_iff.mp hstep
    obtain ⟨spot', b, hmoves, h'⟩ := h.refines.send hct hres
    exact ⟨spot', b, h.moves hmoves h'⟩
  | runCycle =>
    obtain ⟨s₁, spot', a₁, b, hcycle, hflow, hmoves, -, h'⟩ := h.refines.runCycle h.work
    obtain rfl : s₁ = s' := Option.some.inj (hcycle.symm.trans hstep)
    have hall : Relation.ReflTransGen Move a b :=
      .trans (hflow.lift id fun _ _ hf => Move.flow hf) hmoves
    exact ⟨spot', b, h.moves hall h'⟩
  | recv port =>
    obtain ⟨res, hres, rfl⟩ := Option.map_eq_some_iff.mp hstep
    obtain ⟨spot', b, hmoves, h'⟩ := h.refines.recv hres
    exact ⟨spot', b, h.moves hmoves h'⟩

theorem exists_inv {pool : ℕ → SwTxn} {calls : List Call}
    (hrun : Transition.run step (init pool) calls = some s) : ∃ spot a, Inv s spot a :=
  Transition.run_invariant (I := fun s => ∃ spot a, Inv s spot a)
    (fun _ _ _ ⟨_, _, h⟩ hstep => exists_inv_step h hstep) ⟨_, _, inv_init pool⟩ hrun

/-- **No work is lost or repeated.**  After any calls,

* a slot that is not free stands once in one of the queues, parsers and stages of the switch;
* transactions have numbers of their own, and what was returned are numbers of different ones;
* a transaction that was returned with success has made every access of its passes once, and those
  of each pass after those of the passes before it;
* the next cycle finds every pass that it looks up. -/
theorem no_work_lost {pool : ℕ → SwTxn} {calls : List Call}
    (hrun : Transition.run step (init pool) calls = some s) :
    (∀ x < poolSize, x ∉ s.freeList → ∃ k : Spot, k.Exists ∧ k ≠ .free ∧
      ∀ k', (s.queue k').count x = if k' = k then 1 else 0) ∧
    (∀ k t, s.accepted[k]? = some t → t.id = k + 1) ∧
    (s.returned.map Prod.snd).Nodup ∧ (∀ n ∈ s.returned.map Prod.snd, ∃ t ∈ s.accepted, t.id = n) ∧
    (∀ n, (true, n) ∈ s.returned → ∀ t ∈ s.accepted, t.id = n →
      let visits := (s.history.filter fun o => o.txn = n).map RegOp.visit
      visits.Nodup ∧ visits.Pairwise (fun v w => v.1 ≤ w.1) ∧
      ∀ p cell, (p, cell) ∈ visits ↔ ∃ pass, t.passes[p]? = some pass ∧ cell.1 < nStages ∧
        cell.2.1 < regsPerStage ∧ pass.grid cell.1 cell.2.1 = some cell.2.2) ∧
    ∃ s', s.runCycle = some s' := by
  obtain ⟨spot, a, h⟩ := exists_inv hrun
  have href := h.refines
  refine ⟨fun x hx hfree => ?_, fun k t hk => (href.accepted hk).1, href.once, fun n hn => ?_,
    fun n hn t ht hid => ?_, ?_⟩
  · -- the spot of the slot
    obtain ⟨k, hk⟩ := Option.isSome_iff_exists.mp ((href.slot x).mpr hx)
    refine ⟨k, href.exists_spot hk, ?_, fun k' => ?_⟩
    · rintro rfl
      exact hfree (href.placed.mem_iff.mpr hk)
    · rw [href.placed x k', hk]
      simp only [Option.some.injEq, eq_comm]
  · -- a number that was returned is not fresh
    obtain ⟨⟨ok, m⟩, hm, rfl⟩ := List.mem_map.mp hn
    have hfresh : ¬(m = 0 ∨ s.accepted.length < m) := by
      rw [← href.fresh, (href.returned hm).1]
      simp
    have hlt : m - 1 < s.accepted.length := by omega
    refine ⟨s.accepted[m - 1], List.getElem_mem hlt, ?_⟩
    have hid := (href.accepted (List.getElem?_eq_getElem hlt)).1
    rw [hid]
    show m - 1 + 1 = m
    omega
  · obtain ⟨hdone, hok⟩ := href.returned hn
    obtain ⟨k, hk⟩ := List.mem_iff_getElem?.mp ht
    obtain ⟨hkid, hpasses⟩ := href.accepted hk
    rw [← hkid, hid] at hpasses
    have hwork := h.work n
    rw [hdone] at hwork
    have hvisits : (s.history.filter fun o => o.txn = n).map RegOp.visit = visitsOf t.passes := by
      rw [← href.history]
      refine hwork.2.trans ?_
      unfold SwTxn.completed
      rw [hok.mp rfl, List.take_length, hpasses]
    intro visits
    rw [show visits = visitsOf t.passes from hvisits]
    refine ⟨nodup_visitsOf _, (pairwise_visitsOf _).imp fun hlt => ?_, fun p cell => mem_visitsOf⟩
    rcases hlt with hlt | ⟨heq, -⟩
    · exact Nat.le_of_lt hlt
    · exact Nat.le_of_eq heq
  · obtain ⟨s', -, -, -, hcycle, -⟩ := href.runCycle h.work
    exact ⟨s', hcycle⟩

/-- A transaction as it is sent; passes are lists of registers and slots. -/
def sampleTxn (port : ℕ) (passes : List (List (ℕ × ℕ))) : SwTxn where
  port := port
  id := 0
  passCt := 0
  failCt := 0
  valid := true
  locksCheck := 0
  locksWanted := 0
  locksUndo := 0
  passes := passes.map SwPassTxn.ofOps

/-- A transaction of two passes is sent, and received after some cycles. -/
def sendTwoPasses : List Call :=
  .send (sampleTxn 0 [[(3, 7)], [(2, 1)]]) :: List.replicate 39 .runCycle ++ [.recv 0]

theorem run_sendTwoPasses :
    ((Transition.run step (init fun _ => sampleTxn 0 []) sendTwoPasses).map fun s =>
    decide (s.returned = [(true, 1)])) = some true := by
  decide +kernel

theorem no_work_lost_sendTwoPasses :
    ∃ s, Transition.run step (init fun _ => sampleTxn 0 []) sendTwoPasses = some s ∧
    s.returned = [(true, 1)] ∧
    ∀ t ∈ s.accepted, t.id = 1 → ((s.history.filter fun o => o.txn = 1).map RegOp.visit).Nodup := by
  obtain ⟨s, hrun, hs⟩ := Option.map_eq_some_iff.mp run_sendTwoPasses
  have hreturned := of_decide_eq_true hs
  obtain ⟨-, -, -, -, hwork, -⟩ := no_work_lost hrun
  refine ⟨s, hrun, hreturned, fun t ht hid => (hwork 1 ?_ t ht hid).1⟩
  rw [hreturned]
  exact List.mem_cons_self

/-- The transaction in a slot has left its first pass, or is in the last stage of it, and has not
entered its last pass. -/
inductive Between (s : SimSwitch) (x : ℕ) : Prop
  | waiting (hct : 1 ≤ (s.pool x).passCt) (hwaits : ∃ q, x ∈ s.ipb q ∨ s.parser q = some x)
  | stage {i : ℕ} (hpipe : s.pipe i = some x) (hvalid : (s.pool x).valid = true)
      (hct : (s.pool x).passCt + 1 < (s.pool x).passes.length)
      (hleft : 1 ≤ (s.pool x).passCt ∨ i = nStages - 1)

theorem Inv.alone {x : ℕ} (h : Inv s spot a) (hx : s.Between x) : a.Alone (s.pool x).id := by
  apply Pipeline.Between.alone _ h.work h.locking
  cases hx with
  | waiting hct hwaits =>
    obtain ⟨k, hk, hfree, hplace⟩ : ∃ k, spot x = some k ∧ k ≠ .free ∧ k.place = .waiting := by
      obtain ⟨q, hq | hq⟩ := hwaits
      · exact ⟨.ipb q, h.refines.placed.mem_iff.mp hq, by simp, rfl⟩
      · exact ⟨.parser q, h.refines.placed.mem_iff.mp (mem_queue_parserAt.mpr hq), by simp, rfl⟩
    apply Pipeline.Between.waiting
    · rw [h.refines.place hk hfree, hplace]
    · rw [h.refines.txn hk hfree]
      exact hct
  | stage hpipe hvalid hct hleft =>
    obtain ⟨hplace, htxn⟩ := h.refines.at_stage hpipe
    rw [← htxn] at hvalid hct hleft
    exact .stage ⟨hplace, hvalid⟩ hct hleft

theorem alone_flows {n : ℕ} (h : a.Alone n) (hflow : Relation.ReflTransGen Flow a b) :
    b.Alone n ∧ ∃ new, b.history = a.history ++ new ∧ ∀ o ∈ new, o.txn = n := by
  induction hflow with
  | refl => exact ⟨h, [], (List.append_nil _).symm, by simp⟩
  | tail _ hf ih =>
    obtain ⟨halone, new, hhistory, hnew⟩ := ih
    obtain ⟨halone', new', hhistory', hnew'⟩ := halone.flow hf
    refine ⟨halone', new ++ new', ?_, ?_⟩
    · rw [hhistory', hhistory, List.append_assoc]
    · exact List.forall_mem_append.mpr ⟨hnew, hnew'⟩

/-- **The accesses are conflict serializable.**  After any calls, the transactions that have made
accesses are in `order`, in the order in which they were first let in, and

* conflicting accesses of different transactions were made in that order;
* if the transactions ran one after the other in that order, every access would read the same value,
  and the registers would be the same;
* in a cycle between the first pass of a transaction and its last one, only this transaction makes
  accesses. -/
theorem whole_pipe_serializable {pool : ℕ → SwTxn} {calls : List Call}
    (hrun : Transition.run step (init pool) calls = some s) :
    s.order.Nodup ∧ (∀ o ∈ s.history, o.txn ∈ s.order) ∧
    (∀ x y, [x, y].Sublist (s.history.map RegOp.access) → x.txn ≠ y.txn → x.Conflicts y →
      [x.txn, y.txn].Sublist s.order) ∧
    Conflict.Legal (fun _ => 0) (Conflict.serial (s.history.map RegOp.access) s.order) ∧
    s.regs = Conflict.replay (fun _ => 0) (Conflict.serial (s.history.map RegOp.access) s.order) ∧
    ∀ x, s.Between x → ∃ s' new, s.runCycle = some s' ∧ s'.history = s.history ++ new ∧
      ∀ o ∈ new, o.txn = (s.pool x).id := by
  obtain ⟨spot, a, h⟩ := exists_inv hrun
  have href := h.refines
  have hsorted := h.sorted
  obtain ⟨hnodup, hknown, -, -, hordered⟩ := hsorted
  rw [href.order] at hnodup hordered
  rw [href.history] at hordered
  have hmem : ∀ o ∈ s.history, o.txn ∈ s.order := by
    intro o ho
    rw [← href.history] at ho
    rw [← href.order]
    exact hknown o ho
  have hmem' : ∀ x ∈ s.history.map RegOp.access, x.txn ∈ s.order := by
    intro x hx
    obtain ⟨o, ho, rfl⟩ := List.mem_map.mp hx
    exact hmem o ho
  obtain ⟨hlegal, hregs⟩ := href.store
  obtain ⟨hreplay, hlegal'⟩ := hordered.replay_legal (σ := fun _ => 0) hnodup hmem'
  refine ⟨hnodup, hmem, hordered, hlegal' hlegal, ?_, fun x hx => ?_⟩
  · rw [hregs, hreplay]
  · obtain ⟨s', spot', a₁, b, hcycle, hflow, -, hsame, h'⟩ := href.runCycle h.work
    obtain ⟨-, new, hhistory, hnew⟩ := alone_flows (h.alone hx) hflow
    refine ⟨s', new, hcycle, ?_, hnew⟩
    rw [← h'.history, hsame, hhistory, href.history]

/-- A transaction of two passes, and one that conflicts with it; the first comes to the last stage
of its first pass. -/
def twoTxns : List Call :=
  .send (sampleTxn 0 [[(3, 7)], [(2, 1)]]) :: .send (sampleTxn 5 [[(3, 7)]]) ::
    List.replicate 19 .runCycle

theorem run_twoTxns : ((Transition.run step (init fun _ => sampleTxn 0 []) twoTxns).map fun s =>
    decide (s.pipe (nStages - 1) = some 0 ∧ (s.pool 0).valid = true ∧
      (s.pool 0).passCt + 1 < (s.pool 0).passes.length ∧ (s.pool 0).id = 1 ∧ s.order = [1])) =
      some true := by
  decide +kernel

theorem whole_pipe_serializable_twoTxns : ∃ s s' new,
    Transition.run step (init fun _ => sampleTxn 0 []) twoTxns = some s ∧ s.order = [1] ∧
    Conflict.Legal (fun _ => 0) (Conflict.serial (s.history.map RegOp.access) s.order) ∧
    s.runCycle = some s' ∧ s'.history = s.history ++ new ∧ ∀ o ∈ new, o.txn = 1 := by
  obtain ⟨s, hrun, hs⟩ := Option.map_eq_some_iff.mp run_twoTxns
  obtain ⟨hpipe, hvalid, hct, hid, horder⟩ := of_decide_eq_true hs
  obtain ⟨-, -, -, hlegal, -, hbetween⟩ := whole_pipe_serializable hrun
  obtain ⟨s', new, hcycle, hhistory, hnew⟩ := hbetween 0 (.stage hpipe hvalid hct (.inr rfl))
  rw [hid] at hnew
  exact ⟨s, s', new, hrun, horder, hlegal, hcycle, hhistory, hnew⟩

end SimSwitch

end P4db.FastLayout
