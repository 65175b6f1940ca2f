import P4db.Algorithm.LockWord
import P4db.Algorithm.Transition
import P4db.Switch.MyP4db

/-!
## The lock word of the switch

* `Outcome`: the six ways in which the control can decide about a packet.
* `traverse_cases`: what a traversal does.
* `lock_word_exact`: in every state the lock register is the union of the locks that the circulating
  packets hold.
-/

namespace P4db.MyP4db

/-! ### Decisions -/

/-- How the control decides, when `r` are the locks in `locks_check` that were set. -/
inductive Outcome (r : BitVec 32) (hdr : Header) : Verdict → Header → Prop
  /-- the second pass -/
  | second (hundo : hdr.lockInfo.locksUndo ≠ 0) (hpass : hdr.lockInfo.isSecondPass = 1) :
    Outcome r hdr ⟨true, false⟩ hdr
  /-- the locks are given back, and the packet tries again -/
  | undo (hundo : hdr.lockInfo.locksUndo ≠ 0) (hpass : hdr.lockInfo.isSecondPass ≠ 1) :
    Outcome r hdr ⟨false, true⟩ { hdr with lockInfo := { hdr.lockInfo with locksUndo := 0 } }
  /-- the locks are given back, and the packet gives up -/
  | giveUp (hundo : hdr.lockInfo.locksUndo ≠ 0) (hpass : hdr.lockInfo.isSecondPass ≠ 1) :
    Outcome r hdr ⟨false, false⟩ hdr
  /-- the first of two passes -/
  | first (hundo : hdr.lockInfo.locksUndo = 0) (hr : r = 0)
      (hacquire : hdr.lockInfo.locksAcquire ≠ 0) :
    Outcome r hdr ⟨true, true⟩ { hdr with
      nextType := hdr.nextType &&& negStop
      lockInfo := { hdr.lockInfo with
        locksUndo := ~~~r &&& hdr.lockInfo.locksAcquire, isSecondPass := 1 } }
  /-- the only pass -/
  | only (hundo : hdr.lockInfo.locksUndo = 0) (hr : r = 0)
      (hacquire : hdr.lockInfo.locksAcquire = 0) :
    Outcome r hdr ⟨true, false⟩ { hdr with
      nextType := hdr.nextType &&& negStop
      lockInfo := { hdr.lockInfo with locksUndo := ~~~r &&& hdr.lockInfo.locksAcquire } }
  /-- some lock was set -/
  | fail (hundo : hdr.lockInfo.locksUndo = 0) (hr : r ≠ 0) :
    Outcome r hdr ⟨false, true⟩ { hdr with
      lockInfo := { hdr.lockInfo with
        locksUndo := ~~~r &&& hdr.lockInfo.locksAcquire, nFailed := hdr.lockInfo.nFailed + 1 } }

theorem outcome_decideLocks (r : BitVec 32) (hdr : Header) :
    Outcome r hdr (decideLocks r hdr).1 (decideLocks r hdr).2 := by
  unfold decideLocks
  dsimp only
  split_ifs with hundo hpass hfailed hr hacquire
  · exact .second hundo hpass
  · exact .undo hundo hpass
  · exact .giveUp hundo hpass
  · exact .first (not_not.mp hundo) hr hacquire
  · exact .only (not_not.mp hundo) hr (not_not.mp hacquire)
  · exact .fail (not_not.mp hundo) hr

/-! ### Traversals -/

theorem parse_lockInfo {pkt : Packet} {hdr : Header} (h : parse pkt = some hdr) :
    hdr.lockInfo = pkt.lockInfo := by
  simp only [parse, Option.ite_none_right_eq_some, Option.map_eq_some_iff] at h
  obtain ⟨-, r, -, rfl⟩ := h
  rfl

/-- The accesses of a traversal, if it makes any: the registers, the header and the log. -/
def accessIf (v : Verdict) (id : ℕ) (regs : Cell → BitVec 32) (hdr : Header) :
    (Cell → BitVec 32) × Header × List Access :=
  if v.doAccess then access id regs hdr else (regs, hdr, [])

theorem accessIf_lockInfo (v : Verdict) (id : ℕ) (regs : Cell → BitVec 32) (hdr : Header) :
    (accessIf v id regs hdr).2.1.lockInfo = hdr.lockInfo := by
  unfold accessIf
  split_ifs <;> rfl

/-- What a traversal of packet `f` does, which is parsed to `hdr`; the control decides `v` and makes
`hdr'` of the header. -/
structure Traversal (s s' : State) (f : Flight) (others : List Flight) (hdr hdr' : Header)
    (v : Verdict) : Prop where
  perm : s.circulating.Perm (f :: others)
  parsed : parse f.pkt = some hdr
  outcome : Outcome (s.sw.myLock &&& hdr.lockInfo.locksCheck) hdr v hdr'
  myLock : s'.sw.myLock = lockAction s.sw.myLock hdr.lockInfo
  regs : s'.sw.reg = (accessIf v f.id s.sw.reg hdr').1
  history : s'.history = s.history ++ (accessIf v f.id s.sw.reg hdr').2.2
  order : s'.order = if v.doAccess = true ∧ hdr.lockInfo.locksUndo = 0 then s.order ++ [f.id]
    else s.order
  entered : s'.entered = s.entered
  circulating : s'.circulating = if v.doRecirc then
    ⟨f.id, (accessIf v f.id s.sw.reg hdr').2.1.emit⟩ :: others else others
  refused : s'.refused.map Prod.fst =
    if v.doRecirc = false ∧ v.doAccess = false then f.id :: s.refused.map Prod.fst
    else s.refused.map Prod.fst
  completed : s'.completed.map Prod.fst =
    if v.doRecirc = false ∧ v.doAccess = true then f.id :: s.completed.map Prod.fst
    else s.completed.map Prod.fst

theorem ingress_eq (sw : Switch) (id : ℕ) {hdr hdr' : Header} {v : Verdict}
    (h : decideLocks (sw.myLock &&& hdr.lockInfo.locksCheck) hdr = (v, hdr')) :
    ingress sw id hdr = ⟨⟨lockAction sw.myLock hdr.lockInfo, (accessIf v id sw.reg hdr').1⟩,
      (accessIf v id sw.reg hdr').2.1, v, (accessIf v id sw.reg hdr').2.2⟩ := by
  unfold ingress accessIf
  dsimp only
  rw [h]

theorem traverse_cases {s s' : State} {i : ℕ} (h : s.traverse i = some s') :
    ∃ f others hdr hdr' v, Traversal s s' f others hdr hdr' v := by
  simp only [State.traverse, Option.bind_eq_bind, Option.bind_eq_some_iff] at h
  obtain ⟨f, hf, hdr, hparse, h⟩ := h
  obtain ⟨hlt, rfl⟩ := List.getElem?_eq_some_iff.mp hf
  have hperm := (List.getElem_cons_eraseIdx_perm hlt).symm
  have hout := outcome_decideLocks (s.sw.myLock &&& hdr.lockInfo.locksCheck) hdr
  obtain ⟨⟨v, hdr'⟩, hdec⟩ : ∃ d, decideLocks (s.sw.myLock &&& hdr.lockInfo.locksCheck) hdr =
    d := ⟨_, rfl⟩
  rw [hdec] at hout
  rw [ingress_eq s.sw _ hdec] at h
  refine ⟨s.circulating[i], s.circulating.eraseIdx i, hdr, hdr', v, ?_⟩
  dsimp only at h hout
  split_ifs at h with hrecirc hacc <;> rw [Option.some.injEq] at h <;> subst h <;>
    constructor <;> simp_all

/-! ### The lock word -/

namespace State

/-- The locks that the circulating packets hold. -/
def undos (fs : List Flight) : List (BitVec 32) := fs.map fun f => f.pkt.lockInfo.locksUndo

/-- The lock register is exact, and every packet checks the locks that it wants. -/
structure LockInv (s : State) : Prop where
  exact : LockWord.Exact s.sw.myLock (undos s.circulating)
  acquire_check : ∀ f ∈ s.circulating,
    f.pkt.lockInfo.locksAcquire &&& f.pkt.lockInfo.locksCheck = f.pkt.lockInfo.locksAcquire

theorem lockInv_init (regs : Cell → BitVec 32) : LockInv (init regs) :=
  ⟨LockWord.Exact.nil, nofun⟩

theorem lockInv_enter {s s' : State} {pkt : Packet} (h : LockInv s)
    (hstep : s.enter pkt = some s') : LockInv s' := by
  simp only [enter, Option.ite_none_right_eq_some, Option.some.injEq] at hstep
  obtain ⟨⟨hundo, -, hcheck⟩, rfl⟩ := hstep
  constructor
  · simp only [undos, List.map_cons, hundo]
    exact LockWord.Exact.cons_zero.mpr h.exact
  · intro f hf
    rcases List.mem_cons.mp hf with rfl | hf
    · exact hcheck
    · exact h.acquire_check f hf

/-- The locks that a packet gets are those that were free. -/
theorem not_and_acquire {word check acquire : BitVec 32} (h : acquire &&& check = acquire) :
    ~~~(word &&& check) &&& acquire = ~~~word &&& acquire := by
  rw [LockWord.and_eq_left_iff] at h
  apply BitVec.eq_of_getLsbD_eq
  intro i hi
  have hset := h i
  cases ha : acquire.getLsbD i <;> simp_all

/-- A packet that holds no lock takes those that were free. -/
theorem exact_lockAction {word : BitVec 32} {li : LockInfo} {us : List (BitVec 32)}
    (hundo : li.locksUndo = 0) (hexact : LockWord.Exact word (li.locksUndo :: us))
    (hcheck : li.locksAcquire &&& li.locksCheck = li.locksAcquire) :
    LockWord.Exact (lockAction word li)
      ((~~~(word &&& li.locksCheck) &&& li.locksAcquire) :: us) := by
  rw [hundo, LockWord.Exact.cons_zero] at hexact
  rw [lockAction, if_neg (not_not.mpr hundo), not_and_acquire hcheck]
  exact hexact.acquire _

/-- The control leaves the requested locks alone, and the lock word stays exact. -/
theorem exact_outcome {word : BitVec 32} {hdr hdr' : Header} {v : Verdict} {us : List (BitVec 32)}
    (hout : Outcome (word &&& hdr.lockInfo.locksCheck) hdr v hdr')
    (hexact : LockWord.Exact word (hdr.lockInfo.locksUndo :: us))
    (hcheck : hdr.lockInfo.locksAcquire &&& hdr.lockInfo.locksCheck = hdr.lockInfo.locksAcquire) :
    LockWord.Exact (lockAction word hdr.lockInfo)
      (if v.doRecirc then hdr'.lockInfo.locksUndo :: us else us) := by
  cases hout with
  | second hundo hpass =>
    rw [lockAction, if_pos hundo]
    exact hexact.release
  | undo hundo hpass =>
    rw [lockAction, if_pos hundo]
    exact LockWord.Exact.cons_zero.mpr hexact.release
  | giveUp hundo hpass =>
    rw [lockAction, if_pos hundo]
    exact hexact.release
  | first hundo => exact exact_lockAction hundo hexact hcheck
  | only hundo hr hacquire =>
    rw [hundo, LockWord.Exact.cons_zero] at hexact
    rw [lockAction, if_neg (not_not.mpr hundo), hacquire, if_neg (by simp)]
    simpa using hexact
  | fail hundo => exact exact_lockAction hundo hexact hcheck

/-- The control does not change which locks a packet wants and checks. -/
theorem locks_outcome {r : BitVec 32} {hdr hdr' : Header} {v : Verdict}
    (hout : Outcome r hdr v hdr') :
    hdr'.lockInfo.locksAcquire = hdr.lockInfo.locksAcquire ∧
      hdr'.lockInfo.locksCheck = hdr.lockInfo.locksCheck := by
  cases hout <;> exact ⟨rfl, rfl⟩

theorem lockInv_traversal {s s' : State} {f : Flight} {others : List Flight} {hdr hdr' : Header}
    {v : Verdict} (h : LockInv s) (ht : Traversal s s' f others hdr hdr' v) : LockInv s' := by
  have hlock := parse_lockInfo ht.parsed
  have hcheck := h.acquire_check f (ht.perm.mem_iff.mpr List.mem_cons_self)
  rw [← hlock] at hcheck
  have hexact : LockWord.Exact s.sw.myLock (hdr.lockInfo.locksUndo :: undos others) := by
    rw [hlock]
    exact h.exact.perm (ht.perm.map _)
  have hemit : (accessIf v f.id s.sw.reg hdr').2.1.emit.lockInfo = hdr'.lockInfo :=
    accessIf_lockInfo v f.id s.sw.reg hdr'
  constructor
  · rw [ht.myLock, ht.circulating]
    have := exact_outcome ht.outcome hexact hcheck
    split_ifs at this ⊢
    · rw [undos, List.map_cons, hemit]
      exact this
    · exact this
  · intro g hg
    have hothers : ∀ g ∈ others, g.pkt.lockInfo.locksAcquire &&& g.pkt.lockInfo.locksCheck =
        g.pkt.lockInfo.locksAcquire :=
      fun g hg => h.acquire_check g (ht.perm.mem_iff.mpr (List.mem_cons_of_mem _ hg))
    rw [ht.circulating] at hg
    split_ifs at hg
    · rcases List.mem_cons.mp hg with rfl | hg
      · obtain ⟨h₁, h₂⟩ := locks_outcome ht.outcome
        rw [hemit, h₁, h₂]
        exact hcheck
      · exact hothers g hg
    · exact hothers g hg

theorem lockInv_step {s s' : State} (a : Action) (h : LockInv s) (hstep : s.step a = some s') :
    LockInv s' := by
  cases a with
  | enter pkt => exact lockInv_enter h hstep
  | traverse i =>
    obtain ⟨f, others, hdr, hdr', v, ht⟩ := traverse_cases hstep
    exact lockInv_traversal h ht

theorem lockInv_of_run {s : State} {regs : Cell → BitVec 32} {as : List Action}
    (hrun : Transition.run step (init regs) as = some s) : LockInv s :=
  Transition.run_invariant (fun _ a _ hs hstep => lockInv_step a hs hstep) (lockInv_init regs) hrun

/-- **The lock word is exact.**  In every state the lock register is the union of the locks of the
circulating packets, which are disjoint; giving them back does not borrow and clears exactly those
bits; and without circulating packets no lock is set. -/
theorem lock_word_exact {s : State} {regs : Cell → BitVec 32} {as : List Action}
    (hrun : Transition.run step (init regs) as = some s) :
    s.sw.myLock = (s.circulating.map fun f => f.pkt.lockInfo.locksUndo).foldr (· ||| ·) 0 ∧
    (s.circulating.Pairwise fun f g => f.pkt.lockInfo.locksUndo &&& g.pkt.lockInfo.locksUndo = 0) ∧
    (∀ f ∈ s.circulating, f.pkt.lockInfo.locksUndo.toNat ≤ s.sw.myLock.toNat ∧
      s.sw.myLock - f.pkt.lockInfo.locksUndo = s.sw.myLock &&& ~~~f.pkt.lockInfo.locksUndo) ∧
    (s.circulating = [] → s.sw.myLock = 0) := by
  have h := (lockInv_of_run hrun).exact
  refine ⟨h.eq_union, List.pairwise_map.mp h.disjoint, fun f hf => ?_, fun hnil => ?_⟩
  · have hand := h.and_word (List.mem_map_of_mem hf)
    exact ⟨LockWord.toNat_le_of_and hand, LockWord.sub_eq_and_not hand⟩
  · rw [h.eq_union, hnil]
    rfl

/-- A packet that writes to arrays 0 and 1, in two passes, and needs the given locks. -/
def twoPasses (locks : BitVec 32) : Packet where
  dstAddr := 0x222222222222
  srcAddr := 0x111111111111
  lockInfo := ⟨locks, locks, 0, 0, 0⟩
  instrs := [⟨0x01, 0x01, 0, 5⟩, ⟨0x82, 0x01, 0, 7⟩]
  last := 0x80

/-- The second packet gets one of its two locks, since the first has the other. -/
def oneOfTwo : List Action := [.enter (twoPasses 1), .enter (twoPasses 3), .traverse 1, .traverse 1]

theorem run_oneOfTwo : ((Transition.run step (init fun _ => 0) oneOfTwo).map fun s =>
    decide (s.sw.myLock = 3 ∧
      (s.circulating.map fun f => f.pkt.lockInfo.locksUndo) = [2, 1])) = some true := by
  decide +kernel

theorem lock_word_exact_oneOfTwo : ∃ s, Transition.run step (init fun _ => 0) oneOfTwo = some s ∧
    s.sw.myLock = 3 ∧ (s.circulating.map fun f => f.pkt.lockInfo.locksUndo) = [2, 1] ∧
    s.circulating.Pairwise fun f g => f.pkt.lockInfo.locksUndo &&&
      g.pkt.lockInfo.locksUndo = 0 := by
  obtain ⟨s, hrun, hs⟩ := Option.map_eq_some_iff.mp run_oneOfTwo
  obtain ⟨hlock, hundo⟩ := of_decide_eq_true hs
  have hexact := lock_word_exact hrun
  exact ⟨s, hrun, hlock, hundo, hexact.2.1⟩

end State

end P4db.MyP4db
