import Mathlib.Logic.Relation
import P4db.Algorithm.Placement
import P4db.FastLayout.PipeLock

/-!
# The simulated switch refines the pipeline

Every slot of the pool is in one spot: the free list, an input buffer, a parser, a stage or an
egress queue.  The transaction in it, by its number, is in the place of the pipeline that the spot
stands for.  Every call is a sequence of moves of the pipeline then; `run_cycle` is one in which all
transactions in the pipeline move on first, from the last stage to the first, and no one else makes
accesses.

In the middle of a cycle a slot that has been copied to the next stage is still in its old stage
too, until that stage gets its next value.  There the relation is about the state with that stage
empty (`clear`).
-/

namespace P4db.FastLayout

open Placement Pipeline

/-- Where a slot can be. -/
inductive Spot
  | free
  | ipb (q : ℕ)
  | parser (q : ℕ)
  | stage (i : ℕ)
  | egress (port : ℕ)
  deriving DecidableEq

variable {k : Spot} {t : SwTxn} {i x : ℕ} {spot : ℕ → Option Spot}

namespace Spot

/-- The spots that the switch has. -/
def Exists : Spot → Prop
  | free => True
  | ipb q | parser q => q < 1 + nPortGroups
  | stage i => i < nStages
  | egress port => port < nPorts

/-- What a spot stands for. -/
def place : Spot → Place
  | free => .done
  | ipb _ | parser _ => .waiting
  | stage i => .stage i
  | egress _ => .out

theorem place_ne (hk : k ≠ .free) : k.place ≠ .fresh ∧ k.place ≠ .done := by
  cases k with
  | free => exact absurd rfl hk
  | ipb q => simp [place]
  | parser q => simp [place]
  | stage i => simp [place]
  | egress port => simp [place]

theorem eq_stage (h : k.place = .stage i) : k = .stage i := by
  cases k <;> simp_all [place]

end Spot

namespace SimSwitch

variable {s s' : SimSwitch} {a b : Pipeline}

/-- The slots in a spot. -/
def queue (s : SimSwitch) : Spot → List ℕ
  | .free => s.freeList
  | .ipb q => s.ipb q
  | .parser q => (s.parser q).toList
  | .stage i => (s.pipe i).toList
  | .egress port => (s.egress port).map Prod.snd

/-- The switch with an empty stage. -/
def clear (s : SimSwitch) (i : ℕ) : SimSwitch := { s with pipe := Function.update s.pipe i none }

theorem clear_pipe (s : SimSwitch) (i : ℕ) : (s.clear i).pipe i = none := by
  unfold clear
  exact Function.update_self ..

/-- The registers are as the accesses have left them, which have read what was in them. -/
def Store (regs : RegCell → ℕ) (history : List RegOp) : Prop :=
  Conflict.Legal (fun _ => 0) (history.map RegOp.access) ∧
    regs = Conflict.replay (fun _ => 0) (history.map RegOp.access)

/-- Slot `x` is in `spot x`. -/
structure Spots (s : SimSwitch) (spot : ℕ → Option Spot) : Prop where
  placed : Placed s.queue spot
  exists_spot : ∀ {x k}, spot x = some k → k.Exists
  slot : ∀ x, (spot x).isSome ↔ x < poolSize

/-- The transactions in the slots that are not free. -/
structure Names (s : SimSwitch) (spot : ℕ → Option Spot) (a : Pipeline) : Prop where
  place : ∀ {x k}, spot x = some k → k ≠ .free → a.place (s.pool x).id = k.place
  txn : ∀ {x k}, spot x = some k → k ≠ .free → a.txn (s.pool x).id = s.pool x
  port : ∀ {x k}, spot x = some k → k ≠ .free → (s.pool x).port < nPorts
  inj : ∀ {x y k l}, spot x = some k → k ≠ .free → spot y = some l → l ≠ .free →
    (s.pool x).id = (s.pool y).id → x = y
  stage : ∀ {n i}, a.place n = .stage i → ∃ x, s.pipe i = some x ∧ (s.pool x).id = n
  success : ∀ {port ok x}, (ok, x) ∈ s.egress port →
    (ok = true ↔ (s.pool x).passCt = (s.pool x).passes.length)

/-- The transactions that were sent and those that were returned. -/
structure Counted (s : SimSwitch) (a : Pipeline) : Prop where
  fresh : ∀ n, a.place n = .fresh ↔ n = 0 ∨ s.accepted.length < n
  incrId : s.incrId = s.accepted.length + 1
  accepted : ∀ {k t}, s.accepted[k]? = some t → t.id = k + 1 ∧ (a.txn (k + 1)).passes = t.passes
  returned : ∀ {ok n}, (ok, n) ∈ s.returned →
    a.place n = .done ∧ (ok = true ↔ (a.txn n).passCt = (a.txn n).passes.length)
  once : (s.returned.map Prod.snd).Nodup

/-- The switch and the pipeline. -/
structure Refines (s : SimSwitch) (spot : ℕ → Option Spot) (a : Pipeline) : Prop extends
    Spots s spot, Names s spot a, Counted s a where
  holder : a.holder = s.holder
  history : a.history = s.history
  order : a.order = s.order
  store : Store s.regs s.history

/-! ### Spots -/

theorem queue_ipb (s : SimSwitch) (q : ℕ) (l : List ℕ) :
    queue { s with ipb := Function.update s.ipb q l } = Function.update s.queue (.ipb q) l := by
  funext k
  cases k with
  | ipb r =>
    by_cases hr : r = q
    · subst hr
      simp [queue]
    · simp [queue, hr]
  | _ => simp [queue]

theorem queue_parserAt (s : SimSwitch) (q : ℕ) (o : Option ℕ) :
    queue { s with parser := Function.update s.parser q o } =
      Function.update s.queue (.parser q) o.toList := by
  funext k
  cases k with
  | parser r =>
    by_cases hr : r = q
    · subst hr
      simp [queue]
    · simp [queue, hr]
  | _ => simp [queue]

theorem queue_pipe (s : SimSwitch) (i : ℕ) (o : Option ℕ) :
    queue { s with pipe := Function.update s.pipe i o } =
      Function.update s.queue (.stage i) o.toList := by
  funext k
  cases k with
  | stage j =>
    by_cases hj : j = i
    · subst hj
      simp [queue]
    · simp [queue, hj]
  | _ => simp [queue]

theorem queue_egress (s : SimSwitch) (port : ℕ) (l : List (Bool × ℕ)) :
    queue { s with egress := Function.update s.egress port l } =
      Function.update s.queue (.egress port) (l.map Prod.snd) := by
  funext k
  cases k with
  | egress r =>
    by_cases hr : r = port
    · subst hr
      simp [queue]
    · simp [queue, hr]
  | _ => simp [queue]

theorem queue_freeList (s : SimSwitch) (l : List ℕ) :
    queue { s with freeList := l } = Function.update s.queue .free l := by
  funext k
  cases k <;> simp [queue]

theorem mem_queue_stage : x ∈ s.queue (.stage i) ↔ s.pipe i = some x := Option.mem_toList

theorem queue_stage_some (h : s.pipe i = some x) :
    s.queue (.stage i) = [x] := congrArg Option.toList h

theorem queue_parserAt_some {q : ℕ} (h : s.parser q = some x) :
    s.queue (.parser q) = [x] := congrArg Option.toList h

theorem mem_queue_parserAt {q : ℕ} :
    x ∈ s.queue (.parser q) ↔ s.parser q = some x := Option.mem_toList

/-! ### A slot goes to another spot -/

theorem Spots.move {k' : Spot} {l l' : List ℕ} (h : Spots s spot) (hne : k ≠ k')
    (hexists : k'.Exists) (hl : (s.queue k).Perm (x :: l)) (hl' : l'.Perm (x :: s.queue k'))
    (hqueue : s'.queue = Function.update (Function.update s.queue k l) k' l') :
    spot x = some k ∧ Spots s' (Function.update spot x (some k')) := by
  have hx : spot x = some k := by
    rw [← h.placed.mem_iff, hl.mem_iff]
    exact List.mem_cons_self
  refine ⟨hx, ?_, fun {y l} hy => ?_, fun y => ?_⟩
  · rw [hqueue]
    exact h.placed.move hne hl hl'
  · by_cases hyx : y = x
    · subst hyx
      rw [Function.update_self] at hy
      exact Option.some.inj hy ▸ hexists
    · rw [Function.update_of_ne hyx] at hy
      exact h.exists_spot hy
  · by_cases hyx : y = x
    · subst hyx
      rw [Function.update_self, ← h.slot y, hx]
      exact Iff.rfl
    · rw [Function.update_of_ne hyx, h.slot y]

/-- The slot of transaction `n` goes to another spot, or gets this transaction, or loses it. -/
theorem Names.change {n : ℕ} {k' : Spot} {p : Place} (h : Names s spot a) (hspots : Spots s spot)
    (hspots' : Spots s' (Function.update spot x (some k'))) (hx : spot x = some k)
    (hpool : ∀ {y}, y ≠ x → s'.pool y = s.pool y) (hc : Changes a b n p t)
    (hold : k ≠ .free → (s.pool x).id = n)
    (hother : ∀ {y l}, y ≠ x → spot y = some l → l ≠ .free → (s.pool y).id ≠ n)
    (hnew : k' ≠ .free → s'.pool x = t ∧ t.id = n ∧ p = k'.place ∧ t.port < nPorts)
    (hstage : ∀ i, p = .stage i → k' = .stage i)
    (hsuccess : ∀ {port ok y}, (ok, y) ∈ s'.egress port →
      (ok = true ↔ (s'.pool y).passCt = (s'.pool y).passes.length)) :
    Names s' (Function.update spot x (some k')) b := by
  have hself : ∀ {l}, Function.update spot x (some k') x = some l → k' = l := by
    intro l hl
    rw [Function.update_self] at hl
    exact Option.some.inj hl
  have hspot : ∀ {y l}, y ≠ x → Function.update spot x (some k') y = some l → spot y = some l := by
    intro y l hy hl
    rwa [Function.update_of_ne hy] at hl
  constructor
  case place =>
    intro y l hl hfree
    by_cases hy : y = x
    · subst hy
      obtain rfl := hself hl
      obtain ⟨hpool', hid, hp, -⟩ := hnew hfree
      rw [hpool', hid, hc.place_self, hp]
    · have hl := hspot hy hl
      rw [hpool hy, hc.place_of_ne (hother hy hl hfree), h.place hl hfree]
  case txn =>
    intro y l hl hfree
    by_cases hy : y = x
    · subst hy
      obtain rfl := hself hl
      obtain ⟨hpool', hid, -, -⟩ := hnew hfree
      rw [hpool', hid, hc.txn_self]
    · have hl := hspot hy hl
      rw [hpool hy, hc.txn_of_ne (hother hy hl hfree), h.txn hl hfree]
  case port =>
    intro y l hl hfree
    by_cases hy : y = x
    · subst hy
      obtain rfl := hself hl
      obtain ⟨hpool', -, -, hport⟩ := hnew hfree
      rw [hpool']
      exact hport
    · rw [hpool hy]
      exact h.port (hspot hy hl) hfree
  case inj =>
    -- the slot and another one
    have hne : ∀ {y l m}, y ≠ x → Function.update spot x (some k') x = some l → l ≠ .free →
        Function.update spot x (some k') y = some m → m ≠ .free →
          (s'.pool y).id ≠ (s'.pool x).id := by
      intro y l m hy hl hlfree hm hmfree
      obtain rfl := hself hl
      obtain ⟨hpool', hid, -, -⟩ := hnew hlfree
      rw [hpool', hid, hpool hy]
      exact hother hy (hspot hy hm) hmfree
    intro y z l m hl hlfree hm hmfree heq
    by_cases hy : y = x
    · by_cases hz : z = x
      · rw [hy, hz]
      · subst hy
        exact absurd heq.symm (hne hz hl hlfree hm hmfree)
    · by_cases hz : z = x
      · subst hz
        exact absurd heq (hne hy hm hmfree hl hlfree)
      · rw [hpool hy, hpool hz] at heq
        exact h.inj (hspot hy hl) hlfree (hspot hz hm) hmfree heq
  case stage =>
    intro m i hm
    by_cases hmn : m = n
    · subst hmn
      rw [hc.place_self] at hm
      obtain rfl := hstage i hm
      obtain ⟨hpool', hid, -, -⟩ := hnew (by simp)
      refine ⟨x, ?_, by rw [hpool', hid]⟩
      rw [← mem_queue_stage, hspots'.placed.mem_iff, Function.update_self]
    · -- another transaction in the pipeline is in another slot
      rw [hc.place_of_ne hmn] at hm
      obtain ⟨y, hy, rfl⟩ := h.stage hm
      have hyspot : spot y = some (.stage i) := hspots.placed.mem_iff.mp (mem_queue_stage.mpr hy)
      have hyx : y ≠ x := by
        rintro rfl
        obtain rfl := Option.some.inj (hx.symm.trans hyspot)
        exact hmn (hold (by simp))
      refine ⟨y, ?_, by rw [hpool hyx]⟩
      rw [← mem_queue_stage, hspots'.placed.mem_iff, Function.update_of_ne hyx, hyspot]
  case success => exact hsuccess

/-- A transaction that has been sent and not returned changes. -/
theorem Counted.change {n : ℕ} {p : Place} (h : Counted s a) (hc : Changes a b n p t)
    (hbefore : a.place n ≠ .fresh ∧ a.place n ≠ .done) (hafter : p ≠ .fresh)
    (hpasses : t.passes = (a.txn n).passes)
    (hframe : s'.accepted = s.accepted ∧ s'.returned = s.returned ∧ s'.incrId = s.incrId) :
    Counted s' b := by
  obtain ⟨haccepted, hreturned, hincr⟩ := hframe
  constructor
  case fresh =>
    intro m
    rw [haccepted]
    by_cases hmn : m = n
    · subst hmn
      rw [hc.place_self, ← h.fresh]
      exact iff_of_false hafter hbefore.1
    · rw [hc.place_of_ne hmn, h.fresh]
  case incrId => rw [haccepted, hincr, h.incrId]
  case accepted =>
    intro j u hu
    rw [haccepted] at hu
    obtain ⟨huid, hupasses⟩ := h.accepted hu
    refine ⟨huid, ?_⟩
    by_cases hj : j + 1 = n
    · subst hj
      rw [hc.txn_self, hpasses, hupasses]
    · rw [hc.txn_of_ne hj, hupasses]
  case returned =>
    intro ok m hm
    rw [hreturned] at hm
    obtain ⟨hdone, hok⟩ := h.returned hm
    have hmn : m ≠ n := by
      rintro rfl
      exact hbefore.2 hdone
    rw [hc.place_of_ne hmn, hc.txn_of_ne hmn]
    exact ⟨hdone, hok⟩
  case once =>
    rw [hreturned]
    exact h.once

/-- The slot of a transaction goes to another spot. -/
theorem Refines.relocate {k' : Spot} {l l' : List ℕ} (h : Refines s spot a) (hk : k ≠ .free)
    (hk' : k' ≠ .free) (hne : k ≠ k') (hexists : k'.Exists) (hl : (s.queue k).Perm (x :: l))
    (hl' : l'.Perm (x :: s.queue k'))
    (hqueue : s'.queue = Function.update (Function.update s.queue k l) k' l')
    (hpool : s'.pool = Function.update s.pool x t)
    (ht : t.id = (s.pool x).id ∧ t.passes = (s.pool x).passes ∧ t.port = (s.pool x).port)
    (hc : Changes a b (s.pool x).id k'.place t)
    (hcore : b.holder = s'.holder ∧ b.history = s'.history ∧ b.order = s'.order)
    (hframe : s'.accepted = s.accepted ∧ s'.returned = s.returned ∧ s'.incrId = s.incrId)
    (hsuccess : ∀ {port ok y}, (ok, y) ∈ s'.egress port →
      (ok = true ↔ (s'.pool y).passCt = (s'.pool y).passes.length))
    (hstore : Store s'.regs s'.history) : Refines s' (Function.update spot x (some k')) b := by
  obtain ⟨hid, hpasses, hport⟩ := ht
  obtain ⟨hx, hspots'⟩ := h.toSpots.move hne hexists hl hl' hqueue
  have hnames : Names s' (Function.update spot x (some k')) b := by
    apply h.toNames.change h.toSpots hspots' hx _ hc
    case hold => exact fun _ => rfl
    case hother => exact fun hy hl hfree heq => hy (h.inj hl hfree hx hk heq)
    case hnew =>
      intro _
      refine ⟨by rw [hpool, Function.update_self], hid, rfl, ?_⟩
      rw [hport]
      exact h.port hx hk
    case hstage => exact fun i hi => Spot.eq_stage hi
    case hsuccess => exact hsuccess
    · intro y hy
      rw [hpool, Function.update_of_ne hy]
  have hcounted : Counted s' b := by
    apply h.toCounted.change hc _ (Spot.place_ne hk').1 _ hframe
    · rw [h.place hx hk]
      exact Spot.place_ne hk
    · rw [hpasses, h.txn hx hk]
  exact ⟨hspots', hnames, hcounted, hcore.1, hcore.2.1, hcore.2.2, hstore⟩

/-! ### Accesses -/

theorem Store.regOp {o : ℕ × ℕ} (h : Store s.regs s.history) :
    Store (s.regOp t i o).regs (s.regOp t i o).history := by
  obtain ⟨hlegal, hregs⟩ := h
  unfold SimSwitch.regOp Store
  rw [List.map_append, Conflict.legal_append, Conflict.replay_append, ← hregs]
  exact ⟨⟨hlegal, rfl, trivial⟩, rfl⟩

theorem foldl_regOp (s : SimSwitch) (t : SwTxn) (i : ℕ) (ops : List (ℕ × ℕ)) :
    ∃ regs new, ops.foldl (regOp t i) s = { s with regs := regs, history := s.history ++ new } ∧
      (∀ o ∈ new, o.txn = t.id) ∧ new.map RegOp.visit = ops.map (fun o => (t.passCt, i, o.1, o.2)) ∧
      (Store s.regs s.history → Store regs (s.history ++ new)) := by
  induction ops generalizing s with
  | nil =>
    exact ⟨s.regs, [], by rw [List.append_nil]; rfl, by simp,
      rfl, by rw [List.append_nil]; exact id⟩
  | cons o ops ih =>
    obtain ⟨regs, new, heq, htxn, hvisit, hstore⟩ := ih (s.regOp t i o)
    -- the history of the rest comes after the first access
    set first : RegOp := ⟨t.id, t.passCt, (i, o.1, o.2), s.regs (i, o.1, o.2)⟩ with hfirst
    have hhistory : (s.regOp t i o).history ++ new = s.history ++ first :: new :=
      List.append_assoc ..
    rw [hhistory] at heq hstore
    refine ⟨regs, first :: new, ?_, ?_, ?_, ?_⟩
    · rw [List.foldl_cons, heq]
      rfl
    · exact List.forall_mem_cons.mpr ⟨rfl, htxn⟩
    · rw [List.map_cons, List.map_cons, hvisit]
      rfl
    · exact fun h => hstore h.regOp

/-- `run_reg_ops`, for a transaction whose pass exists. -/
theorem runRegOps_eq (hpipe : s.pipe i = some x)
    (hpass : (s.pool x).passCt < (s.pool x).passes.length) :
    ∃ regs new, s.runRegOps i = some { s with regs := regs, history := s.history ++ new } ∧
      Accesses (s.pool x).id (s.pool x) i new ∧
        (Store s.regs s.history → Store regs (s.history ++ new)) := by
  have hget : (s.pool x).passes[(s.pool x).passCt]? = some (s.pool x).passes[(s.pool x).passCt] :=
    List.getElem?_eq_getElem hpass
  unfold runRegOps
  rw [hpipe]
  cases hv : (s.pool x).valid with
  | false =>
    refine ⟨s.regs, [], ?_,
      ⟨by simp, (visits_of_not_valid hv i).symm⟩, by rw [List.append_nil]; exact id⟩
    simp only [hv, Bool.false_eq_true, if_false, List.append_nil]
  | true =>
    obtain ⟨regs, new, heq, htxn, hvisit, hstore⟩ :=
      foldl_regOp s (s.pool x) i ((s.pool x).passes[(s.pool x).passCt].opsAt i)
    refine ⟨regs, new, ?_, ⟨htxn, ?_⟩, hstore⟩
    · simp only [hv, if_true, hget, Option.bind_eq_bind, Option.bind_some, heq]
    · unfold SwTxn.visits
      rw [hv, if_pos rfl, hget, hvisit]
      rfl

theorem runRegOps_none (hpipe : s.pipe i = none) : s.runRegOps i = some s := by
  unfold runRegOps
  rw [hpipe]

/-! ### The stages -/

theorem Refines.spot_stage (h : Refines s spot a) (hpipe : s.pipe i = some x) :
    spot x = some (.stage i) := h.placed.mem_iff.mp (mem_queue_stage.mpr hpipe)

/-- The transaction in a stage. -/
theorem Refines.at_stage (h : Refines s spot a) (hpipe : s.pipe i = some x) :
    a.place (s.pool x).id = .stage i ∧ a.txn (s.pool x).id = s.pool x :=
  ⟨h.place (h.spot_stage hpipe) (by simp), h.txn (h.spot_stage hpipe) (by simp)⟩

/-- A stage that is empty. -/
theorem Refines.stage_free (h : Refines s spot a) (hpipe : s.pipe i = none) (n : ℕ) :
    a.place n ≠ .stage i := by
  intro hn
  obtain ⟨x, hx, -⟩ := h.stage hn
  rw [hpipe] at hx
  exact absurd hx (by simp)

theorem Refines.passCt_lt (h : Refines s spot a) (hwork : a.Work) (hpipe : s.pipe i = some x) :
    (s.pool x).passCt < (s.pool x).passes.length := by
  obtain ⟨hplace, htxn⟩ := h.at_stage hpipe
  have hn := hwork (s.pool x).id
  rw [hplace, htxn] at hn
  exact hn.2.1

/-- A slot that is elsewhere is in no egress queue. -/
theorem Refines.success_of_ne (h : Refines s spot a) (hx : spot x = some k)
    (hk : ∀ port, k ≠ .egress port) (t : SwTxn) {port y : ℕ} {ok : Bool}
    (hy : (ok, y) ∈ s.egress port) :
    ok = true ↔ (Function.update s.pool x t y).passCt =
      (Function.update s.pool x t y).passes.length := by
  have hyx : y ≠ x := by
    rintro rfl
    have hmem : y ∈ s.queue (.egress port) := List.mem_map_of_mem hy
    rw [h.placed.mem_iff, hx] at hmem
    exact hk port (Option.some.inj hmem)
  rw [Function.update_of_ne hyx]
  exact h.success hy

/-- A slot is put into an egress queue with the result `ok`. -/
theorem Refines.success_egress {q : ℕ} {ok : Bool} (h : Refines s spot a) (hx : spot x = some k)
    (hk : ∀ port, k ≠ .egress port) (hok : ok = true ↔ t.passCt = t.passes.length) {port y : ℕ}
    {ok' : Bool} (hy : (ok', y) ∈ Function.update s.egress q (s.egress q ++ [(ok, x)]) port) :
    ok' = true ↔ (Function.update s.pool x t y).passCt =
      (Function.update s.pool x t y).passes.length := by
  rcases eq_or_ne port q with rfl | hport
  · rw [Function.update_self] at hy
    rcases List.mem_append.mp hy with hy | hy
    · exact h.success_of_ne hx hk t hy
    · obtain ⟨rfl, rfl⟩ := Prod.mk.inj (List.mem_singleton.mp hy)
      rw [Function.update_self]
      exact hok
  · rw [Function.update_of_ne hport] at hy
    exact h.success_of_ne hx hk t hy

/-- The pool does not change. -/
theorem Refines.changes_place (h : Refines s spot a) (hx : spot x = some k) (hk : k ≠ .free)
    (p : Place) (history : List RegOp) :
    Changes a { a with place := Function.update a.place (s.pool x).id p, history := history }
      (s.pool x).id p
      (s.pool x) := by
  refine ⟨rfl, ?_⟩
  rw [eq_comm, Function.update_eq_self_iff, h.txn hx hk]

/-- The contents of a stage are copied to the next one. -/
theorem queue_shift (hpipe : s.pipe i = some x) :
    queue (clear { s with pipe := Function.update s.pipe (i + 1) (s.pipe i) } i) =
      Function.update (Function.update (s.clear (i + 1)).queue (.stage i) [])
        (.stage (i + 1)) [x] := by
  have hcopy : queue { s with pipe := Function.update s.pipe (i + 1) (s.pipe i) } =
      Function.update s.queue (.stage (i + 1)) [x] := by
    rw [queue_pipe, hpipe]
    rfl
  have hne : Spot.stage i ≠ .stage (i + 1) := by simp
  calc
    _ = Function.update (queue { s with pipe := Function.update s.pipe (i + 1) (s.pipe i) })
      (.stage i) [] :=
      queue_pipe _ i none
    _ = Function.update (Function.update (Function.update s.queue (.stage (i + 1)) [])
      (.stage (i + 1)) [x])
        (.stage i) [] := by rw [hcopy, Function.update_idem]
    _ = _ := by rw [Function.update_comm hne.symm, clear, queue_pipe, Option.toList_none]

/-- A step of the loop over the stages. -/
theorem Refines.advance (h : Refines (s.clear (i + 1)) spot a) (hwork : a.Work)
    (hi : i + 1 < nStages) :
    ∃ s₁ spot' b, s.runRegOps i = some s₁ ∧ Relation.ReflTransGen Flow a b ∧
      Refines (clear { s₁ with pipe := Function.update s₁.pipe (i + 1) (s₁.pipe i) } i)
        spot' b := by
  have hclear : (s.clear (i + 1)).pipe i = s.pipe i := Function.update_of_ne (by omega) ..
  have hfree : (s.clear (i + 1)).pipe (i + 1) = none := clear_pipe s (i + 1)
  cases hpipe : s.pipe i with
  | none =>
    have hsame : clear { s with pipe := Function.update s.pipe (i + 1) (s.pipe i) } i =
        s.clear (i + 1) := by
      unfold clear
      congr 1
      rw [hpipe, Function.update_eq_self_iff]
      show none = Function.update s.pipe (i + 1) none i
      rw [Function.update_of_ne (Nat.ne_of_lt (Nat.lt_succ_self i)), hpipe]
    exact ⟨s, spot, a, runRegOps_none hpipe, .refl, hsame ▸ h⟩
  | some x =>
    have hx : (s.clear (i + 1)).pipe i = some x := by rw [hclear, hpipe]
    obtain ⟨hplace, htxn⟩ := h.at_stage hx
    obtain ⟨regs, new, hrun, hnew, hstore⟩ := runRegOps_eq hpipe (h.passCt_lt hwork hx)
    set n := (s.pool x).id with hn
    have hmove : Flow a { a with
        place := Function.update a.place n (.stage (i + 1))
        history := a.history ++ new } := .advance hplace hi (h.stage_free hfree) (htxn ▸ hnew)
    refine ⟨_, Function.update spot x (some (.stage (i + 1))), _, hrun, .single hmove, ?_⟩
    have hspot := h.spot_stage hx
    have hexists : (Spot.stage (i + 1)).Exists := hi
    apply h.relocate (x := x) (k := .stage i) (t := s.pool x) (l := []) (by simp) (by simp)
      (by simp) hexists
    case hl => rw [queue_stage_some hx]
    case hl' =>
      show List.Perm [x] (x :: ((s.clear (i + 1)).pipe (i + 1)).toList)
      rw [hfree]
      exact List.Perm.refl _
    case hqueue => exact queue_shift hpipe
    case hpool => exact (Function.update_eq_self x s.pool).symm
    case ht => exact ⟨rfl, rfl, rfl⟩
    case hc => exact h.changes_place hspot (by simp) (.stage (i + 1)) (a.history ++ new)
    case hcore => exact ⟨h.holder, congrArg (· ++ new) h.history, h.order⟩
    case hframe => exact ⟨rfl, rfl, rfl⟩
    case hsuccess => exact h.success
    case hstore => exact hstore h.store

theorem work_of_flow (hwork : a.Work) (hf : Relation.ReflTransGen Flow a b) : b.Work := by
  induction hf with
  | refl => exact hwork
  | tail _ h ih => exact ih.flow h

/-- The loop over the stages. -/
theorem Refines.shift {n : ℕ} (h : Refines (s.clear n) spot a) (hwork : a.Work) (hn : n < nStages) :
    ∃ s' spot' b, shift n s = some s' ∧ Relation.ReflTransGen Flow a b ∧
      Refines (s'.clear 0) spot' b := by
  induction n generalizing s spot a with
  | zero => exact ⟨s, spot, a, rfl, .refl, h⟩
  | succ i ih =>
    obtain ⟨s₁, spot₁, a₁, hrun, hflow, h₁⟩ := h.advance hwork hn
    obtain ⟨s', spot', b, hshift, hflow', h'⟩ := ih h₁ (work_of_flow hwork hflow) (by omega)
    refine ⟨s', spot', b, ?_, hflow.trans hflow', h'⟩
    unfold SimSwitch.shift
    rw [hrun, Option.bind_eq_bind, Option.bind_some]
    exact hshift

/-- What `run_cycle` does with the transaction in the last stage. -/
theorem exitPipe_eq (hpipe : s.pipe (nStages - 1) = some x) :
    ∃ t, t.id = (s.pool x).id ∧ t.passes = (s.pool x).passes ∧ t.port = (s.pool x).port ∧
      t.passCt = (if (s.pool x).valid then (s.pool x).passCt + 1 else (s.pool x).passCt) ∧
      ((∃ ok, s.exitPipe = { s with
          pool := Function.update s.pool x t
          egress := Function.update s.egress t.port (s.egress t.port ++ [(ok, x)]) } ∧
          (ok = true ↔ t.passCt = t.passes.length) ∧ (t.passCt = t.passes.length ∨ t.passCt = 0)) ∨
        s.exitPipe = { s with
          pool := Function.update s.pool x t
          ipb := Function.update s.ipb recircPort (s.ipb recircPort ++ [x]) } ∧
          t.passCt ≠ t.passes.length) := by
  unfold exitPipe
  rw [hpipe]
  set t := (if (s.pool x).valid then { s.pool x with passCt := (s.pool x).passCt + 1 }
    else s.pool x) with ht
  have hfields : t.id = (s.pool x).id ∧ t.passes = (s.pool x).passes ∧ t.port = (s.pool x).port ∧
      t.passCt = if (s.pool x).valid then (s.pool x).passCt + 1 else (s.pool x).passCt := by
    rw [ht]
    split_ifs <;> exact ⟨rfl, rfl, rfl, rfl⟩
  obtain ⟨hid, hpasses, hport, hct⟩ := hfields
  by_cases hlast : t.passes.length = t.passCt
  · refine ⟨t, hid, hpasses, hport, hct,
      .inl ⟨true, if_pos hlast, iff_of_true rfl hlast.symm, .inl hlast.symm⟩⟩
  · have hlast' : t.passCt ≠ t.passes.length := fun heq => hlast heq.symm
    by_cases hfail : t.passCt = 0 ∧ t.failCt ≥ maxFailCt ∧ t.locksUndo = 0
    · refine ⟨t, hid, hpasses, hport, hct,
        .inl ⟨false, ?_, iff_of_false Bool.false_ne_true hlast', .inr hfail.1⟩⟩
      exact (if_neg hlast).trans (if_pos hfail)
    · refine ⟨{ t with valid := true }, hid, hpasses, hport, hct, .inr ⟨?_, hlast'⟩⟩
      exact (if_neg hlast).trans (if_neg hfail)

/-- The transaction in the last stage leaves. -/
theorem Refines.leave (h : Refines s spot a) (hwork : a.Work) :
    ∃ s₁ spot' b, s.runRegOps (nStages - 1) = some s₁ ∧ Relation.ReflTransGen Flow a b ∧
      Refines (s₁.exitPipe.clear (nStages - 1)) spot' b := by
  cases hpipe : s.pipe (nStages - 1) with
  | none =>
    have hexit : s.exitPipe.clear (nStages - 1) = s := by
      unfold exitPipe clear
      rw [hpipe]
      show { s with pipe := Function.update s.pipe (nStages - 1) none } = s
      rw [← hpipe, Function.update_eq_self]
    refine ⟨s, spot, a, runRegOps_none hpipe, .refl, ?_⟩
    rw [hexit]
    exact h
  | some x =>
    obtain ⟨hplace, htxn⟩ := h.at_stage hpipe
    obtain ⟨regs, new, hrun, hnew, hstore⟩ := runRegOps_eq hpipe (h.passCt_lt hwork hpipe)
    set s₁ : SimSwitch := { s with regs := regs, history := s.history ++ new } with hs₁
    have hpipe₁ : s₁.pipe (nStages - 1) = some x := hpipe
    have hspot := h.spot_stage hpipe
    obtain ⟨t, hid, hpasses, hport, hct, hexit⟩ := exitPipe_eq hpipe₁
    have hleave : ∀ p, Leaves (s.pool x) t p → Flow a { a with
        place := Function.update a.place (s.pool x).id p
        txn := Function.update a.txn (s.pool x).id t
        history := a.history ++ new } := by
      intro p hp
      apply Flow.leave hplace
      · rw [htxn]
        exact hnew
      · rw [htxn]
        exact hp
    have hl : (s.queue (.stage (nStages - 1))).Perm [x] := by rw [queue_stage_some hpipe]
    rcases hexit with ⟨ok, heq, hok, hend⟩ | ⟨heq, hend⟩
    · -- to the egress
      refine ⟨s₁, Function.update spot x (some (.egress t.port)), _, hrun,
        .single (hleave .out ⟨hpasses, hct, .inr ⟨rfl, hend⟩⟩), ?_⟩
      have hexists : (Spot.egress t.port).Exists := by
        rw [hport]
        exact h.port hspot (by simp)
      rw [heq]
      apply h.relocate (x := x) (k := .stage (nStages - 1)) (t := t) (l := []) (by simp) (by simp)
        (by simp) hexists hl
      case hl' => exact List.perm_append_singleton x (s.queue (.egress t.port))
      case hqueue =>
        rw [Function.update_comm (by simp)]
        refine (queue_pipe _ (nStages - 1) none).trans (congrArg (Function.update · _ _) ?_)
        refine (queue_egress s t.port _).trans ?_
        rw [List.map_append]
        rfl
      case hpool => rfl
      case ht => exact ⟨hid, hpasses, hport⟩
      case hc => exact ⟨rfl, rfl⟩
      case hcore => exact ⟨h.holder, congrArg (· ++ new) h.history, h.order⟩
      case hframe => exact ⟨rfl, rfl, rfl⟩
      case hsuccess => exact h.success_egress hspot (by simp) hok
      case hstore => exact hstore h.store
    · -- to the recirculation port
      refine ⟨s₁, Function.update spot x (some (.ipb recircPort)), _, hrun,
        .single (hleave .waiting ⟨hpasses, hct, .inl ⟨rfl, hend⟩⟩), ?_⟩
      have hexists : (Spot.ipb recircPort).Exists := by
        show recircPort < 1 + nPortGroups
        decide
      rw [heq]
      apply h.relocate (x := x) (k := .stage (nStages - 1)) (t := t) (l := []) (by simp) (by simp)
        (by simp) hexists hl
      case hl' => exact List.perm_append_singleton x (s.queue (.ipb recircPort))
      case hqueue =>
        rw [Function.update_comm (by simp)]
        refine (queue_pipe _ (nStages - 1) none).trans (congrArg (Function.update · _ _) ?_)
        exact queue_ipb s recircPort _
      case hpool => rfl
      case ht => exact ⟨hid, hpasses, hport⟩
      case hc => exact ⟨rfl, rfl⟩
      case hcore => exact ⟨h.holder, congrArg (· ++ new) h.history, h.order⟩
      case hframe => exact ⟨rfl, rfl, rfl⟩
      case hsuccess => exact h.success_of_ne hspot (by simp) t
      case hstore => exact hstore h.store

/-! ### The parsers -/

/-- `ipb_to_parser`, when the parser is empty. -/
theorem Refines.ipbToParser {q : ℕ} (h : Refines s spot a) (hq : q < 1 + nPortGroups)
    (hparser : s.parser q = none) : ∃ spot', Refines (s.ipbToParser q) spot' a := by
  unfold SimSwitch.ipbToParser
  cases hipb : s.ipb q with
  | nil => exact ⟨spot, h⟩
  | cons x rest =>
    have hmem : x ∈ s.queue (.ipb q) := by
      show x ∈ s.ipb q
      rw [hipb]
      exact List.mem_cons_self
    have hspot : spot x = some (.ipb q) := h.placed.mem_iff.mp hmem
    have hexists : (Spot.parser q).Exists := hq
    refine ⟨Function.update spot x (some (.parser q)), ?_⟩
    apply h.relocate (x := x) (k := .ipb q) (t := s.pool x) (l := rest) (by simp) (by simp)
      (by simp) hexists
    case hl =>
      show (s.ipb q).Perm (x :: rest)
      rw [hipb]
    case hl' =>
      show List.Perm [x] (x :: (s.parser q).toList)
      rw [hparser]
      exact List.Perm.refl _
    case hqueue =>
      refine (queue_parserAt { s with ipb := Function.update s.ipb q rest } q (some x)).trans ?_
      rw [queue_ipb]
      rfl
    case hpool => exact (Function.update_eq_self x s.pool).symm
    case ht => exact ⟨rfl, rfl, rfl⟩
    case hc =>
      -- the transaction waits as before
      constructor
      · rw [eq_comm, Function.update_eq_self_iff, h.place hspot (by simp)]
        rfl
      · rw [eq_comm, Function.update_eq_self_iff, h.txn hspot (by simp)]
    case hcore => exact ⟨h.holder, h.history, h.order⟩
    case hframe => exact ⟨rfl, rfl, rfl⟩
    case hsuccess => exact h.success
    case hstore => exact h.store

theorem Refines.fillParsers (h : Refines s spot a) : ∃ spot', Refines s.fillParsers spot' a := by
  have hfold : ∀ qs : List ℕ, (∀ q ∈ qs, q < 1 + nPortGroups) →
      ∀ {s : SimSwitch} {spot}, Refines s spot a →
      ∃ spot', Refines (qs.foldl (fun s i => if (s.parser i).isNone then s.ipbToParser i else s) s)
        spot' a := by
    intro qs
    induction qs with
    | nil => exact fun _ s spot h => ⟨spot, h⟩
    | cons q qs ih =>
      intro hqs s spot h
      have hrest : ∀ q ∈ qs, q < 1 + nPortGroups := fun r hr => hqs r (List.mem_cons_of_mem q hr)
      rw [List.foldl_cons]
      split_ifs with hnone
      · obtain ⟨spot', h'⟩ := h.ipbToParser (hqs q List.mem_cons_self)
          (Option.isNone_iff_eq_none.mp hnone)
        exact ih hrest h'
      · exact ih hrest h
  exact hfold _ (fun q hq => List.mem_range.mp hq) h

/-- The parser that is chosen has a transaction. -/
theorem arbitrate_spec (hsize : s.arbitrate.2 ≠ -1) :
    s.arbitrate.1 < 1 + nPortGroups ∧ (s.parser s.arbitrate.1).isSome := by
  revert hsize
  unfold arbitrate
  split_ifs with hrecirc
  · exact fun _ => ⟨by decide, hrecirc⟩
  · -- it was chosen in one of the rounds
    have hfold : ∀ is : List ℕ, (∀ i ∈ is, i < nPortGroups) → ∀ acc : ℕ × ℤ,
        (acc.2 ≠ -1 → acc.1 < 1 + nPortGroups ∧ (s.parser acc.1).isSome) →
        let res := is.foldl (fun (acc : ℕ × ℤ) i =>
          if (s.parser i).isSome ∧ ((s.ipb i).length : ℤ) > acc.2 then (i, ((s.ipb i).length : ℤ))
            else acc) acc
        res.2 ≠ -1 → res.1 < 1 + nPortGroups ∧ (s.parser res.1).isSome := by
      intro is
      induction is with
      | nil => exact fun _ acc hacc => hacc
      | cons i is ih =>
        intro his acc hacc
        apply ih fun j hj => his j (List.mem_cons_of_mem i hj)
        have hi := his i List.mem_cons_self
        beta_reduce
        split_ifs with hcond
        · exact fun _ => ⟨by omega, hcond.1⟩
        · exact hacc
    exact hfold _ (fun i hi => List.mem_range.mp hi) (0, -1) fun hne => absurd rfl hne

/-- A waiting transaction goes into the first stage, with the lock as `whole_pipe_lock` leaves
it. -/
theorem move_intoStage {n : ℕ} (hplace : a.place n = .waiting) (hfree : ∀ m, a.place m ≠ .stage 0)
    (hid : (a.txn n).id = n) :
    Move a (a.intoStage n (wholePipeLock a.holder (a.txn n)).1
      (wholePipeLock a.holder (a.txn n)).2) := by
  unfold wholePipeLock
  rw [hid]
  cases hholder : a.holder with
  | none => exact .enter hplace hfree hholder
  | some h =>
    by_cases hn : h = n
    · subst hn
      simp only [if_true]
      exact .reenter hplace hfree hholder
    · simp only [hn, if_false]
      exact .refuse hplace hfree hholder hn

/-- A transaction enters the pipeline; no access is made. -/
theorem Refines.enterPipe (h : Refines (s.clear 0) spot a) :
    ∃ spot' b, Relation.ReflTransGen Move a b ∧ b.history = a.history ∧
      Refines s.enterPipe spot' b := by
  unfold SimSwitch.enterPipe
  by_cases hsize : s.arbitrate.2 = -1
  · simp only [hsize, if_true]
    exact ⟨spot, a, .refl, rfl, h⟩
  · obtain ⟨hidx, hsome⟩ := arbitrate_spec hsize
    obtain ⟨x, hx⟩ := Option.isSome_iff_exists.mp hsome
    simp only [hsize, if_false, hx]
    set q := s.arbitrate.1 with hq
    set t := s.pool x with ht
    have hspot : spot x = some (.parser q) := h.placed.mem_iff.mp (mem_queue_parserAt.mpr hx)
    have hplace : a.place t.id = .waiting := h.place hspot (by simp)
    have htxn : a.txn t.id = t := h.txn hspot (by simp)
    have hempty : (s.clear 0).pipe 0 = none := clear_pipe s 0
    have hmove := move_intoStage hplace (h.stage_free hempty) (by rw [htxn])
    rw [htxn, h.holder] at hmove
    set lock := wholePipeLock s.holder t with hlock
    have hexists : (Spot.stage 0).Exists := by
      show 0 < nStages
      decide
    have hnext : Refines { s with
        pool := Function.update s.pool x { t with valid := lock.1 }
        holder := lock.2
        pipe := Function.update s.pipe 0 (some x)
        parser := Function.update s.parser q none
        order := if lock.1 ∧ t.id ∉ s.order then s.order ++ [t.id] else s.order }
        (Function.update spot x (some (.stage 0))) (a.intoStage t.id lock.1 lock.2) := by
      apply h.relocate (x := x) (k := .parser q) (t := { t with valid := lock.1 }) (l := [])
        (by simp) (by simp) (by simp) hexists
      case hl =>
        show (s.queue (.parser q)).Perm [x]
        rw [queue_parserAt_some hx]
      case hl' =>
        show List.Perm [x] (x :: ((s.clear 0).pipe 0).toList)
        rw [hempty]
        exact List.Perm.refl _
      case hqueue =>
        rw [Function.update_comm (by simp)]
        refine (queue_parserAt { s with pipe := Function.update s.pipe 0 (some x) } q none).trans ?_
        rw [queue_pipe, clear, queue_pipe, Function.update_idem]
        rfl
      case hpool => rfl
      case ht => exact ⟨rfl, rfl, rfl⟩
      case hc =>
        have hc := changes_intoStage a t.id lock.1 lock.2
        rw [htxn] at hc
        exact hc
      case hcore =>
        refine ⟨rfl, h.history, ?_⟩
        have horder : a.order = s.order := h.order
        show (if lock.1 then letIn a.order t.id else a.order) = _
        rw [horder]
        unfold letIn
        by_cases hvalid : lock.1 = true
        · by_cases hmem : t.id ∈ s.order
          · simp [hvalid, hmem]
          · simp [hvalid, hmem]
        · simp [hvalid]
      case hframe => exact ⟨rfl, rfl, rfl⟩
      case hsuccess => exact h.success_of_ne hspot (by simp) _
      case hstore => exact h.store
    obtain ⟨spot', h'⟩ := hnext.ipbToParser hidx (Function.update_self ..)
    exact ⟨spot', _, .single hmove, rfl, h'⟩

/-! ### A cycle -/

/-- **`run_cycle`** has no fault.  First the transactions in the pipeline move on, then one may
enter. -/
theorem Refines.runCycle (h : Refines s spot a) (hwork : a.Work) :
    ∃ s' spot' a₁ b, s.runCycle = some s' ∧ Relation.ReflTransGen Flow a a₁ ∧
      Relation.ReflTransGen Move a₁ b ∧
      b.history = a₁.history ∧ Refines s' spot' b := by
  obtain ⟨s₁, spot₁, a₁, hrun, hflow₁, h₁⟩ := h.leave hwork
  obtain ⟨s₂, spot₂, a₂, hshift, hflow₂, h₂⟩ := h₁.shift (work_of_flow hwork hflow₁) (by decide)
  obtain ⟨spot₃, b, hmove, hhistory, h₃⟩ := h₂.enterPipe
  obtain ⟨spot', h'⟩ := h₃.fillParsers
  refine ⟨s₂.enterPipe.fillParsers, spot', a₂, b, ?_, hflow₁.trans hflow₂, hmove, hhistory, h'⟩
  unfold SimSwitch.runCycle
  rw [hrun, Option.bind_eq_bind, Option.bind_some, hshift]
  rfl

end SimSwitch

end P4db.FastLayout
