import Mathlib.Data.Prod.Lex
import P4db.Ee.Equiv.Split

/-!
# What goes to the second pass

`extract_hot_cold` with two passes wants the colder one of two operations on a register array in
the second pass, behind locks that are taken in the first.  `total_order_gt` is the wrong way round
for this.

* `PairInv`: the loop keeps every operation of the second pass together with its mate, the operation
  of the first pass on the same register array, and the mate is the colder one.  A lock to acquire
  is one of the pair's, the one of the operation that came later.
* `pairs_iff_loaded`: the pairs are the loaded operations that share a register array.
* `colderSecond_iff`: the second pass is what the source wants exactly when loaded operations that
  share a register array are on the same key, and this is not the key of slot 0.
-/

namespace P4db.HotCold

open State

/-! ### Lock bits and the order of operations -/

/-- The operation has the lock bit `p`. -/
def LockAt (pr : HotOp) (p : ℕ) : Prop := pr.2.lockPos ≠ noLock ∧ pr.2.lockPos = p

instance (pr : HotOp) (p : ℕ) : Decidable (LockAt pr p) :=
  inferInstanceAs (Decidable (_ ∧ _))

theorem getLsbD_setLock (locks : BitVec 32) (op : Op) {loc : TupleLocation} (h : LockInRange loc)
    (p : ℕ) : (setLock locks loc).getLsbD p = (locks.getLsbD p || decide (LockAt (op, loc) p)) := by
  unfold setLock LockAt
  split_ifs with hlock
  · have hlt : loc.lockPos < 32 := h hlock
    rw [BitVec.getLsbD_or, ← BitVec.twoPow_eq, BitVec.getLsbD_twoPow]
    simp [hlt, hlock]
  · simp [hlock]

/-- Frequency first, then key. -/
def heat (pr : HotOp) : ℕ ×ₗ ℕ := toLex (pr.2.distFreq, pr.1.id)

/-- `total_order_gt` holds when the first operation is the colder one. -/
theorem heat_le_of_totalOrderGt {x y : HotOp}
    (h : TupleLocation.totalOrderGt x.2.distFreq x.1.id y.2.distFreq y.1.id = true) :
    heat x ≤ heat y := by
  unfold TupleLocation.totalOrderGt at h
  unfold heat
  rw [Prod.Lex.toLex_le_toLex]
  split_ifs at h with hne
  · exact .inl (of_decide_eq_true h)
  · exact .inr ⟨not_ne_iff.mp hne, Nat.le_of_lt (of_decide_eq_true h)⟩

theorem heat_le_of_not_totalOrderGt {x y : HotOp}
    (h : ¬TupleLocation.totalOrderGt x.2.distFreq x.1.id y.2.distFreq y.1.id = true) :
    heat y ≤ heat x := by
  unfold TupleLocation.totalOrderGt at h
  unfold heat
  rw [Prod.Lex.toLex_le_toLex]
  split_ifs at h with hne
  · have hlt : ¬x.2.distFreq < y.2.distFreq := by simpa using h
    exact .inl (Nat.lt_of_le_of_ne (Nat.not_lt.mp hlt) (Ne.symm hne))
  · have hlt : ¬x.1.id < y.1.id := by simpa using h
    exact .inr ⟨(not_ne_iff.mp hne).symm, Nat.not_lt.mp hlt⟩

theorem id_eq_of_heat_eq {x y : HotOp} (h : heat x = heat y) : x.1.id = y.1.id :=
  congrArg (fun a => (ofLex a).2) h

/-! ### Pairs during the loop -/

variable {maxPasses : ℕ} {partInfo : PartitionInfo} {txn₀ : Txn} {layout : DeclusteredLayout}
  {st st' : State} {i : ℕ}

/-- The operations of the second pass so far, each behind its mate. -/
def pairs (st : State) : List (HotOp × HotOp) := (pass2 st).map fun y => (mate st (reg y), y)

theorem pairs_congr (hpass2 : pass2 st' = pass2 st)
    (hmate : ∀ y ∈ pass2 st, mate st' (reg y) = mate st (reg y)) : pairs st' = pairs st := by
  unfold pairs
  rw [hpass2]
  apply List.map_congr_left
  intro y hy
  rw [hmate y hy]

/-- Where the locks and the order stand after `i` operations. -/
structure PairInv (st : State) : Prop where
  order : ∀ pr ∈ pairs st, heat pr.1 ≤ heat pr.2
  check : st.txn.doAccel = true → ∀ pr ∈ pass1 st ++ pass2 st, ∀ p, LockAt pr p →
    st.txn.locksCheck.getLsbD p = true
  acquired : ∀ p, st.txn.locksAcquire.getLsbD p = true →
    ∃ pr ∈ pairs st, LockAt pr.1 p ∨ LockAt pr.2 p
  acquires : ∀ pr ∈ pairs st, (∀ p, LockAt pr.1 p → st.txn.locksAcquire.getLsbD p = true) ∨
    ∀ p, LockAt pr.2 p → st.txn.locksAcquire.getLsbD p = true

theorem pairInv_init (mem : Txn) (layout : DeclusteredLayout) :
    PairInv (State.init (Txn.new mem) layout) where
  order := nofun
  check _ := nofun
  acquired p h := by
    have hzero : (0#32).getLsbD p = true := h
    simp at hzero
  acquires := nofun

section Mates

variable (h : SplitInv maxPasses partInfo txn₀ layout i st)
include h

/-- A new entry of the first pass is not the mate of an operation that was there. -/
theorem mate_update {r : ℕ} (hr : st.regUsage r = true) (x : HotOp) :
    Function.update st.txn.hotOpsPass1 st.hotP1 x (st.hotReorderBuf r) = mate st r :=
  Function.update_of_ne (Nat.ne_of_lt (h.buf r hr).1) _ _

theorem mate_addPass1 {op : Op} {loc : TupleLocation} {r : ℕ} (hr : st.regUsage r = true)
    (hfree : st.regUsage loc.regArrayId = false) :
    mate ((look partInfo txn₀ st i).addPass1 op loc) r = mate st r := by
  have hne : r ≠ loc.regArrayId := by
    rintro rfl
    exact Bool.noConfusion (hr.symm.trans hfree)
  show Function.update st.txn.hotOpsPass1 st.hotP1 (op, loc)
    (Function.update st.hotReorderBuf loc.regArrayId st.hotP1 r) = _
  rw [Function.update_of_ne hne]
  exact mate_update h hr _

theorem mate_addPass2 {op : Op} {loc : TupleLocation} {r : ℕ} (hr : st.regUsage r = true)
    (hused : st.regUsage loc.regArrayId = true) :
    mate ((look partInfo txn₀ st i).addPass2 op loc) r =
      if r = loc.regArrayId ∧ ¬keeps st op loc then (op, loc) else mate st r := by
  show (if keeps st op loc then st.txn.hotOpsPass1 else
    Function.update st.txn.hotOpsPass1 (st.hotReorderBuf loc.regArrayId) (op, loc))
      (st.hotReorderBuf r) = _
  by_cases hkeep : keeps st op loc = true
  · simp [hkeep, mate]
  · by_cases hreg : r = loc.regArrayId
    · simp [hkeep, hreg]
    · -- two register arrays do not share an entry
      have hne : st.hotReorderBuf r ≠ st.hotReorderBuf loc.regArrayId := by
        intro heq
        have hown := (h.buf r hr).2
        rw [heq, (h.buf _ hused).2] at hown
        exact hreg hown.symm
      rw [if_neg hkeep, Function.update_of_ne hne, if_neg fun hc => hreg hc.1]
      rfl

/-- The colder one of the operation that comes in and its mate is now in the first pass. -/
theorem pairs_addPass2 (op : Op) (hused : st.regUsage loc.regArrayId = true)
    (hfree : st.regUsage2 loc.regArrayId = false) :
    ∃ x y, pairs ((look partInfo txn₀ st i).addPass2 op loc) = pairs st ++ [(x, y)] ∧
      heat x ≤ heat y ∧ (x = (op, loc) ∨ y = (op, loc)) := by
  set st' := (look partInfo txn₀ st i).addPass2 op loc
  have hpass2 : pass2 st' = pass2 st ++
      [if keeps st op loc then (op, loc) else mate st loc.regArrayId] :=
    pass2_addPass2 _ _ _
  have hold : ∀ y ∈ pass2 st, mate st' (reg y) = mate st (reg y) := by
    intro y hy
    have hne : reg y ≠ loc.regArrayId := by
      intro heq
      have hmem := (h.used2 (reg y)).mpr (List.mem_map_of_mem hy)
      rw [heq, hfree] at hmem
      cases hmem
    rw [mate_addPass2 h (h.used y hy) hused, if_neg fun hc => hne hc.1]
  have hnew : mate st' loc.regArrayId = if ¬keeps st op loc then (op, loc)
      else mate st loc.regArrayId := by
    rw [mate_addPass2 h hused hused]
    simp only [true_and]
  have hreg : reg (mate st loc.regArrayId) = loc.regArrayId := (h.buf _ hused).2
  unfold pairs
  rw [hpass2, List.map_append, List.map_congr_left fun y hy => by rw [hold y hy]]
  by_cases hkeep : keeps st op loc = true
  · refine ⟨mate st loc.regArrayId, (op, loc), ?_, heat_le_of_totalOrderGt hkeep, .inr rfl⟩
    rw [if_neg (not_not.mpr hkeep)] at hnew
    rw [if_pos hkeep, List.map_singleton, ← hnew]
    rfl
  · refine ⟨(op, loc), mate st loc.regArrayId, ?_, heat_le_of_not_totalOrderGt hkeep, .inl rfl⟩
    rw [if_pos hkeep] at hnew
    rw [if_neg hkeep, List.map_singleton, hreg, hnew]

end Mates

section Steps

variable (h : SplitInv maxPasses partInfo txn₀ layout i st) (hp : PairInv st) {op : Op}
  {loc : TupleLocation} (hrange : LockInRange loc)
include h hp

include hrange in
theorem pairInv_addPass1 (hfree : st.regUsage loc.regArrayId = false) :
    PairInv ((look partInfo txn₀ st i).addPass1 op loc) := by
  have hpairs : pairs ((look partInfo txn₀ st i).addPass1 op loc) = pairs st :=
    pairs_congr rfl fun y hy => mate_addPass1 h (h.used y hy) hfree
  have hpass1 : pass1 ((look partInfo txn₀ st i).addPass1 op loc) = pass1 st ++ [(op, loc)] :=
    pass1_addPass1 _ _ _
  refine ⟨hpairs ▸ hp.order, fun haccel pr hpr p hlock => ?_, hpairs ▸ hp.acquired,
    hpairs ▸ hp.acquires⟩
  · show (setLock st.txn.locksCheck loc).getLsbD p = true
    rw [getLsbD_setLock _ op hrange, Bool.or_eq_true, decide_eq_true_iff]
    rw [hpass1, List.append_assoc, List.mem_append, List.mem_append, List.mem_singleton] at hpr
    rcases hpr with hpr | rfl | hpr
    · exact .inl (hp.check haccel pr (List.mem_append_left _ hpr) p hlock)
    · exact .inr hlock
    · exact .inl (hp.check haccel pr (List.mem_append_right _ hpr) p hlock)

theorem pairInv_giveUp : PairInv ((look partInfo txn₀ st i).giveUp op loc) := by
  have hpairs : pairs ((look partInfo txn₀ st i).giveUp op loc) = pairs st :=
    pairs_congr rfl fun y hy => mate_update h (h.used y hy) _
  exact ⟨hpairs ▸ hp.order, nofun, hpairs ▸ hp.acquired, hpairs ▸ hp.acquires⟩

include hrange in
theorem pairInv_addPass2 (hused : st.regUsage loc.regArrayId = true)
    (hfree : st.regUsage2 loc.regArrayId = false) :
    PairInv ((look partInfo txn₀ st i).addPass2 op loc) := by
  obtain ⟨x, y, hpairs, hle, hxy⟩ := pairs_addPass2 h op hused hfree
  have hperm := perm_addPass2 h op hused
  set st' := (look partInfo txn₀ st i).addPass2 op loc
  have hacquire : ∀ p, st'.txn.locksAcquire.getLsbD p = true ↔
      st.txn.locksAcquire.getLsbD p = true ∨ LockAt (op, loc) p := by
    intro p
    show (setLock st.txn.locksAcquire loc).getLsbD p = true ↔ _
    rw [getLsbD_setLock _ op hrange, Bool.or_eq_true, decide_eq_true_iff]
  refine ⟨fun pr hpr => ?_, fun haccel pr hpr p hlock => ?_, fun p hbit => ?_, fun pr hpr => ?_⟩
  · rw [hpairs, List.mem_append, List.mem_singleton] at hpr
    rcases hpr with hpr | rfl
    · exact hp.order pr hpr
    · exact hle
  · show (setLock st.txn.locksCheck loc).getLsbD p = true
    rw [getLsbD_setLock _ op hrange, Bool.or_eq_true, decide_eq_true_iff]
    rcases List.mem_append.mp (hperm.mem_iff.mp hpr) with hpr | hpr
    · exact .inl (hp.check haccel pr hpr p hlock)
    · exact .inr (List.mem_singleton.mp hpr ▸ hlock)
  · rw [hpairs]
    rcases (hacquire p).mp hbit with hbit | hlock
    · obtain ⟨pr, hpr, hlock⟩ := hp.acquired p hbit
      exact ⟨pr, List.mem_append_left _ hpr, hlock⟩
    · refine ⟨(x, y), List.mem_append_right _ List.mem_cons_self, ?_⟩
      rcases hxy with rfl | rfl
      · exact .inl hlock
      · exact .inr hlock
  · rw [hpairs, List.mem_append, List.mem_singleton] at hpr
    rcases hpr with hpr | rfl
    · rcases hp.acquires pr hpr with hbits | hbits
      · exact .inl fun p hlock => (hacquire p).mpr (.inl (hbits p hlock))
      · exact .inr fun p hlock => (hacquire p).mpr (.inl (hbits p hlock))
    · rcases hxy with rfl | rfl
      · exact .inl fun p hlock => (hacquire p).mpr (.inr hlock)
      · exact .inr fun p hlock => (hacquire p).mpr (.inr hlock)

end Steps

/-- One iteration. -/
theorem pairInv_step (hl : layout.Reachable) (h : SplitInv maxPasses partInfo txn₀ layout i st)
    (hp : PairInv st) : PairInv (extractStep maxPasses partInfo st i) := by
  have hrange : LockInRange (layout.location (located partInfo txn₀ i).id) :=
    (hl.inRange_location _).2
  cases extractStep_classified maxPasses partInfo h.at' with
  | first _ hfree heq => exact heq ▸ pairInv_addPass1 h hp hrange hfree
  | second _ hused _ hfree _ heq => exact heq ▸ pairInv_addPass2 h hp hrange hused hfree
  | giveUp _ _ heq => exact heq ▸ pairInv_giveUp h hp
  | cold _ heq =>
    obtain ⟨c₁, c₂, v₁, v₂, hadd⟩ := addCold_eq (look partInfo txn₀ st i) (located partInfo txn₀ i)
      (layout.location (located partInfo txn₀ i).id)
    rw [heq, hadd]
    exact ⟨hp.order, hp.check, hp.acquired, hp.acquires⟩

/-! ### The second pass of an accelerated transaction -/

/-- What the source wants from the second pass: none of its operations is hotter than the one of the
first pass on the same register array or in slot 0, and exactly their locks are acquired; all locks
of hot operations are checked. -/
structure ColderSecond (layout : DeclusteredLayout) (txn : Txn) : Prop where
  lower : ∀ x ∈ txn.hot, ∀ y ∈ txn.hot2, reg x = reg y → heat y ≤ heat x
  slot : ∀ y ∈ txn.hot2, (layout.entry y.1.id).regArrayIdx ≠ 0
  acquire : ∀ p, txn.locksAcquire.getLsbD p = true ↔ ∃ y ∈ txn.hot2, LockAt y p
  check : ∀ pr ∈ txn.hot ++ txn.hot2, ∀ p, LockAt pr p → txn.locksCheck.getLsbD p = true

/-- The same, when operations of equal heat do not count as lower. -/
def StrictlyColderSecond (layout : DeclusteredLayout) (txn : Txn) : Prop :=
  ColderSecond layout txn ∧ ∀ x ∈ txn.hot, ∀ y ∈ txn.hot2, reg x = reg y → heat y < heat x

/-- The loaded operations `i` and `j` are on hot keys of the same register array. -/
def SharesArray (layout : DeclusteredLayout) (mem : Txn) (i j : ℕ) : Prop :=
  layout.isHot (mem.coldOps i).id = true ∧ layout.isHot (mem.coldOps j).id = true ∧
    (layout.location (mem.coldOps i).id).regArrayId =
      (layout.location (mem.coldOps j).id).regArrayId

/-- Loaded operations on hot keys, two by two. -/
theorem pairwise_hotPart_seen {Q : HotOp → HotOp → Prop} :
    (hotPart layout (seen partInfo txn₀ nOps)).Pairwise Q ↔ ∀ i j, i < j → j < nOps →
      layout.isHot (txn₀.coldOps i).id = true → layout.isHot (txn₀.coldOps j).id = true →
      Q (located partInfo txn₀ i, layout.location (txn₀.coldOps i).id)
        (located partInfo txn₀ j, layout.location (txn₀.coldOps j).id) := by
  unfold hotPart seen
  rw [List.pairwise_map, List.pairwise_filter, List.pairwise_map, List.pairwise_iff_getElem]
  simp only [List.length_range, List.getElem_range]
  constructor
  · intro h i j hij hj
    exact h i j (Nat.lt_trans hij hj) hj hij
  · intro h i j _ hj hij
    exact h i j hij hj

section Accelerated

variable {mem txn : Txn} {layout' : DeclusteredLayout} (hl : layout.Reachable)
  (h : extractHotCold 2 partInfo (Txn.new mem) layout = some (txn, layout'))
  (hdo : txn.doAccel = true)
include hl h hdo

/-- The invariants in terms of the lists of the transaction. -/
theorem pairs_of_accel :
    (∀ pr ∈ txn.hot ++ txn.hot2, pr.2 = layout.location pr.1.id) ∧
    (∀ x ∈ txn.hot, ∀ y ∈ txn.hot2, reg x = reg y → heat x ≤ heat y) ∧
    (∀ y ∈ txn.hot2, ∃ x ∈ txn.hot, reg x = reg y ∧
      ((∀ p, LockAt x p → txn.locksAcquire.getLsbD p = true) ∨
        ∀ p, LockAt y p → txn.locksAcquire.getLsbD p = true)) ∧
    (∀ p, txn.locksAcquire.getLsbD p = true → ∃ x ∈ txn.hot, ∃ y ∈ txn.hot2, reg x = reg y ∧
      (LockAt x p ∨ LockAt y p)) ∧
    ∀ pr ∈ txn.hot ++ txn.hot2, ∀ p, LockAt pr p → txn.locksCheck.getLsbD p = true := by
  obtain ⟨st, rfl, haccel, hinv, hp⟩ := exists_of_accel (P := fun _ st => PairInv st)
    (fun _ _ hinv hp => pairInv_step hl hinv hp) (pairInv_init mem layout) h hdo
  have hmate : ∀ y ∈ pass2 st, mate st (reg y) ∈ pass1 st ∧ reg (mate st (reg y)) = reg y := by
    intro y hy
    obtain ⟨hlt, hreg⟩ := hinv.buf _ (hinv.used y hy)
    exact ⟨List.mem_map_of_mem (List.mem_range.mpr hlt), hreg⟩
  have hpair : ∀ y ∈ pass2 st, (mate st (reg y), y) ∈ pairs st := fun y hy => List.mem_map_of_mem hy
  rw [hinv.hot_finishAccel, hinv.hot2_finishAccel rfl]
  refine ⟨fun pr hpr => ?_, fun x hx y hy hreg => ?_, fun y hy => ?_, fun p hbit => ?_,
    hp.check haccel⟩
  · exact (location_of_mem_hotPart (hinv.hot.mem_iff.mp hpr)).2
  · -- the first pass has one operation on each register array
    have hx' : x = mate st (reg y) :=
      List.inj_on_of_nodup_map (hinv.accel haccel).1 hx (hmate y hy).1
        (hreg.trans (hmate y hy).2.symm)
    exact hx' ▸ hp.order _ (hpair y hy)
  · exact ⟨mate st (reg y), (hmate y hy).1, (hmate y hy).2, hp.acquires _ (hpair y hy)⟩
  · obtain ⟨pr, hpr, hlock⟩ := hp.acquired p hbit
    obtain ⟨y, hy, rfl⟩ := List.mem_map.mp hpr
    exact ⟨mate st (reg y), (hmate y hy).1, y, hy, (hmate y hy).2, hlock⟩

omit hl in
/-- The operations of a pair are loaded operations that share a register array, and all of these are
in a pair. -/
theorem pairs_iff_loaded {R : DbKey → DbKey → Prop} (hsymm : ∀ {k k'}, R k k' → R k' k) :
    (∀ x ∈ txn.hot, ∀ y ∈ txn.hot2, reg x = reg y → R x.1.id y.1.id) ↔
      ∀ i j, i < j → j < nOps → SharesArray layout mem i j →
        R (mem.coldOps i).id (mem.coldOps j).id := by
  obtain ⟨st, rfl, haccel, hinv, -⟩ := exists_of_accel (P := fun _ _ => True)
    (fun _ _ _ _ => trivial) trivial h hdo
  rw [hinv.hot_finishAccel, hinv.hot2_finishAccel rfl]
  set Q : HotOp → HotOp → Prop := fun x y => reg x = reg y → R x.1.id y.1.id
  -- within a pass every register array is used once
  have hpass : ∀ {l : List HotOp}, (l.map reg).Nodup → l.Pairwise Q := by
    intro l hnd
    exact (List.pairwise_map.mp hnd).imp fun hne heq => absurd heq hne
  have hsplit : (pass1 st ++ pass2 st).Pairwise Q ↔ ∀ x ∈ pass1 st, ∀ y ∈ pass2 st, Q x y := by
    rw [List.pairwise_append]
    constructor
    · exact fun hall => hall.2.2
    · exact fun hall => ⟨hpass (hinv.accel haccel).1, hpass hinv.distinct2, hall⟩
  rw [← hsplit, hinv.hot.pairwise_iff fun hQ heq => hsymm (hQ heq.symm), pairwise_hotPart_seen]
  constructor
  · intro hall i j hij hj hshare
    exact hall i j hij hj hshare.1 hshare.2.1 hshare.2.2
  · intro hall i j hij hj hi hj' hreg
    exact hall i j hij hj ⟨hi, hj', hreg⟩

/-- A second pass with operations on the keys of the first. -/
theorem colderSecond_of_same (hsame : ∀ x ∈ txn.hot, ∀ y ∈ txn.hot2, reg x = reg y →
    x.1.id = y.1.id ∧ (layout.entry x.1.id).regArrayIdx ≠ 0) : ColderSecond layout txn := by
  obtain ⟨hloc, -, hacquires, hacquired, hcheck⟩ := pairs_of_accel hl h hdo
  -- operations on the same key have the same location
  have hloc' : ∀ x ∈ txn.hot, ∀ y ∈ txn.hot2, reg x = reg y → x.2 = y.2 := by
    intro x hx y hy hreg
    rw [hloc x (List.mem_append_left _ hx), hloc y (List.mem_append_right _ hy),
      (hsame x hx y hy hreg).1]
  refine ⟨fun x hx y hy hreg => ?_, fun y hy => ?_, fun p => ⟨fun hbit => ?_, ?_⟩, hcheck⟩
  · unfold heat
    rw [hloc' x hx y hy hreg, (hsame x hx y hy hreg).1]
  · obtain ⟨x, hx, hreg, -⟩ := hacquires y hy
    obtain ⟨hid, hslot⟩ := hsame x hx y hy hreg
    exact hid ▸ hslot
  · obtain ⟨x, hx, y, hy, hreg, hlock⟩ := hacquired p hbit
    refine ⟨y, hy, ?_⟩
    rcases hlock with hlock | hlock
    · unfold LockAt at hlock ⊢
      rwa [hloc' x hx y hy hreg] at hlock
    · exact hlock
  · rintro ⟨y, hy, hlock⟩
    obtain ⟨x, hx, hreg, hbits | hbits⟩ := hacquires y hy
    · apply hbits
      unfold LockAt at hlock ⊢
      rwa [hloc' x hx y hy hreg]
    · exact hbits p hlock

/-- **The second pass has the hotter operations.**  The second pass is what the source wants exactly
when loaded operations that share a register array are on the same key, and not on the one in slot
0; two operations on the same key have equal heat.  If "lower" is to exclude this, it is what the
source wants exactly when no loaded operations share a register array, so that the second pass is
empty. -/
theorem colderSecond_iff :
    (ColderSecond layout txn ↔ ∀ i j, i < j → j < nOps → SharesArray layout mem i j →
      (mem.coldOps i).id = (mem.coldOps j).id ∧
        (layout.entry (mem.coldOps i).id).regArrayIdx ≠ 0) ∧
    (StrictlyColderSecond layout txn ↔
      ∀ i j, i < j → j < nOps → ¬SharesArray layout mem i j) := by
  obtain ⟨-, horder, hmates, -, -⟩ := pairs_of_accel hl h hdo
  have hsame := pairs_iff_loaded h hdo
    (R := fun k k' => k = k' ∧ (layout.entry k).regArrayIdx ≠ 0)
    fun hR => ⟨hR.1.symm, hR.1 ▸ hR.2⟩
  have hnone := pairs_iff_loaded h hdo (R := fun _ _ => False) id
  refine ⟨Iff.trans ⟨fun hwant x hx y hy hreg => ?_, colderSecond_of_same hl h hdo⟩ hsame,
    Iff.trans ⟨fun hwant x hx y hy hreg => ?_, fun hno => ?_⟩ hnone⟩
  · -- the loop leaves the colder one in the first pass, so the two are equally hot
    have hid : x.1.id = y.1.id :=
      id_eq_of_heat_eq (le_antisymm (horder x hx y hy hreg) (hwant.lower x hx y hy hreg))
    exact ⟨hid, hid ▸ hwant.slot y hy⟩
  · exact absurd (hwant.2 x hx y hy hreg) (not_lt_of_ge (horder x hx y hy hreg))
  · have hempty : ∀ y, y ∉ txn.hot2 := by
      intro y hy
      obtain ⟨x, hx, hreg, -⟩ := hmates y hy
      exact hno x hx y hy hreg
    refine ⟨colderSecond_of_same hl h hdo fun x hx y hy _ => absurd hy (hempty y), ?_⟩
    exact fun x _ y hy => absurd hy (hempty y)

end Accelerated

instance (layout : DeclusteredLayout) (mem : Txn) (i j : ℕ) :
    Decidable (SharesArray layout mem i j) := inferInstanceAs (Decidable (_ ∧ _))

theorem sharesArray_sample {ks : List DbKey} (hks : ∀ j < nOps, ks.getD j 0 ≤ 2305) {i j : ℕ}
    (hi : i < nOps) (hj : j < nOps) :
    SharesArray sample (memOf ks) i j ↔ SharesArray sampleAnswers (memOf ks) i j := by
  unfold SharesArray DeclusteredLayout.isHot DeclusteredLayout.location memOf
  rw [getLocation_sample (hks i hi), getLocation_sample (hks j hj)]

/-- Both passes use register array 0 on the key 2232. -/
theorem colderSecond_same_key : ∃ txn layout',
    extractHotCold 2 oneNode
      (Txn.new (memOf [2305, 0, 2232, 2303, 2302, 2232, 2301, 2300])) sample =
      some (txn, layout') ∧ txn.doAccel = true ∧ txn.hot2.map (fun y => y.1.id) = [2232] ∧
      ColderSecond sample txn := by
  set ks := [2305, 0, 2232, 2303, 2302, 2232, 2301, 2300]
  have hks : ∀ j < nOps, ks.getD j 0 ≤ 2305 := by decide
  obtain ⟨txn, layout', heq, hval⟩ := exists_extract_sample 2 ks
    (fun txn => (txn.doAccel, txn.hot2.map fun y => y.1.id)) (v := (true, [2232])) hks
    (by decide +kernel)
  obtain ⟨hdo, hids⟩ := Prod.mk.inj hval
  refine ⟨txn, layout', heq, hdo, hids, (colderSecond_iff reachable_sample heq hdo).1.mpr ?_⟩
  intro i j hij hj hshare
  -- the operations 2 and 5
  have hpair : ∀ j < nOps, ∀ i < j, SharesArray sampleAnswers (memOf ks) i j → i = 2 ∧ j = 5 := by
    decide +kernel
  obtain ⟨rfl, rfl⟩ :=
    hpair j hj i hij ((sharesArray_sample hks (Nat.lt_trans hij hj) hj).mp hshare)
  refine ⟨rfl, ?_⟩
  have hid : ((memOf ks).coldOps 2).id = 2232 := rfl
  rw [hid, entry_sample (by decide)]
  decide

/-- The second operation on register array 0 is the one in slot 0, and it has no lock. -/
theorem not_colderSecond_twoHot : ∃ txn layout',
    extractHotCold 2 oneNode (Txn.new (memOf twoHot)) sample = some (txn, layout') ∧
      txn.doAccel = true ∧ ¬ColderSecond sample txn := by
  obtain ⟨txn, layout', heq, hval⟩ := exists_extract_sample 2 twoHot
    (fun txn => (txn.doAccel, txn.hot2.map fun y => y.1.id)) (v := (true, [2304])) (by decide)
    (by decide +kernel)
  obtain ⟨hdo, hids⟩ := Prod.mk.inj hval
  refine ⟨txn, layout', heq, hdo, fun hwant => ?_⟩
  have hmem : 2304 ∈ txn.hot2.map fun y => y.1.id := hids ▸ List.mem_cons_self
  obtain ⟨y, hy, hid⟩ := List.mem_map.mp hmem
  apply hwant.slot y hy
  rw [hid, entry_sample (by decide)]
  decide

end P4db.HotCold
