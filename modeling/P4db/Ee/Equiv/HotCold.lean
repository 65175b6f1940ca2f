import Mathlib.Data.List.Range
import P4db.Ee.HotCold

/-!
# What an accelerated transaction carries

With one pass through the switch, an accelerated transaction has in `hot_ops_pass1` exactly its
operations on hot keys, in their order and with the locations the layout reports, and no two of them
use the same register array (`accelerated_extractHotCold`).  The loop invariant `LoopInv` says this
about the operations seen so far.  With any number of passes, the cold operations know the owners of
their keys, and so does the hottest one (`owner_of_hottestColdI1`).
-/

namespace P4db

/-- An array that does not end before index `k`, and ends there if `k` is below its size. -/
theorem terminated_eq {α : Type*} {n k : ℕ} {ends : α → Bool} {arr : ℕ → α} (hk : k ≤ n)
    (hlt : ∀ j < k, ends (arr j) = false) (hend : k < n → ends (arr k) = true) :
    terminated n ends arr = (List.range k).map arr := by
  have hpre : ∀ x ∈ (List.range k).map arr, (!ends x) = true := by
    intro x hx
    obtain ⟨j, hj, rfl⟩ := List.mem_map.mp hx
    rw [hlt j (List.mem_range.mp hj)]
    rfl
  obtain ⟨m, rfl⟩ := Nat.exists_eq_add_of_le hk
  rw [terminated, List.range_add, List.map_append, List.takeWhile_append_of_pos hpre]
  cases m with
  | zero => simp
  | succ m =>
    have hstop := hend (by omega)
    rw [List.range_succ_eq_map, List.map_cons, List.map_cons, List.takeWhile_cons_of_neg]
    · rw [List.append_nil]
    · simp [hstop]

/-- A write to an array, seen in the list of its first entries. -/
theorem map_range_set {α : Type*} (arr : ℕ → α) (n j : ℕ) (x : α) :
    (List.range n).map (Function.update arr j x) = ((List.range n).map arr).set j x := by
  apply List.ext_getElem
  · simp
  · intro m h₁ h₂
    rw [List.getElem_set]
    simp only [List.getElem_map, List.getElem_range]
    by_cases hm : j = m
    · subst hm
      rw [Function.update_self, if_pos rfl]
    · rw [Function.update_of_ne (Ne.symm hm), if_neg hm]

/-- A write behind the entries that are read. -/
theorem map_range_update_of_le {α : Type*} (arr : ℕ → α) {n j : ℕ} (hj : n ≤ j) (x : α) :
    (List.range n).map (Function.update arr j x) = (List.range n).map arr := by
  rw [map_range_set, List.set_eq_of_length_le]
  simpa using hj

theorem map_range_update {α : Type*} (arr : ℕ → α) (n : ℕ) (x : α) :
    (List.range (n + 1)).map (Function.update arr n x) = (List.range n).map arr ++ [x] := by
  rw [List.range_succ, List.map_append, List.map_singleton, Function.update_self,
    map_range_update_of_le _ (Nat.le_refl n)]

/-- An array in which the end is marked, unless it is full. -/
theorem terminated_update {α : Type*} {n k : ℕ} {ends : α → Bool} {arr : ℕ → α} {x : α} (hk : k ≤ n)
    (hlt : ∀ y ∈ (List.range k).map arr, ends y = false) (hx : ends x = true) :
    terminated n ends (if k < n then Function.update arr k x else arr) =
      (List.range k).map arr := by
  have hbelow : ∀ j < k, ends (arr j) = false := fun j hj =>
    hlt _ (List.mem_map_of_mem (List.mem_range.mpr hj))
  split_ifs with hfull
  · rw [terminated_eq hk, map_range_update_of_le _ (Nat.le_refl k)]
    · intro j hj
      rw [Function.update_of_ne (Nat.ne_of_lt hj)]
      exact hbelow j hj
    · intro _
      rw [Function.update_self]
      exact hx
  · rw [terminated_eq hk hbelow]
    exact fun hlt => absurd hlt hfull

namespace DeclusteredLayout

/-- A lookup of a key the layout knows changes nothing. -/
theorem getLocation_snd_of_isSome {l : DeclusteredLayout} {k : DbKey}
    (h : (l.virtMap k).isSome = true) : (l.getLocation k).2 = l := by
  have hv : UnorderedMap.emplace l.virtMap k TupleLocation.zero = l.virtMap := by
    rw [UnorderedMap.emplace, if_pos h]
  show { l with virtMap := UnorderedMap.emplace l.virtMap k TupleLocation.zero } = l
  rw [hv]

end DeclusteredLayout

namespace HotCold

variable {partInfo : PartitionInfo} {txn₀ : Txn} {layout : DeclusteredLayout} {st : State}

/-- Operation `j` as loaded, with the node that owns its key. -/
def located (partInfo : PartitionInfo) (txn₀ : Txn) (j : ℕ) : Op :=
  { txn₀.coldOps j with locInfo := partInfo.location (txn₀.coldOps j).id }

/-- The operations on hot keys among a list, with their locations. -/
def hotPart (layout : DeclusteredLayout) (ops : List Op) : List HotOp :=
  (ops.filter fun op => layout.isHot op.id).map fun op => (op, layout.location op.id)

theorem hotPart_append (layout : DeclusteredLayout) (ops : List Op) (op : Op) :
    hotPart layout (ops ++ [op]) = hotPart layout ops ++
      if layout.isHot op.id then [(op, layout.location op.id)] else [] := by
  rw [hotPart, List.filter_append, List.map_append]
  congr 1
  by_cases h : layout.isHot op.id <;> simp [h]

/-- What every iteration preserves holds at the end, behind the last operation that was seen. -/
theorem extractLoop_induct (maxPasses : ℕ) (partInfo : PartitionInfo) {P : ℕ → State → Prop}
    {n i : ℕ}
    (hstep : ∀ j st, j < i + n → (st.txn.coldOps j).mode ≠ .invalid → P j st →
      P (j + 1) (extractStep maxPasses partInfo st j)) (h : P i st) :
    ∃ m ≤ i + n, P m (extractLoop maxPasses partInfo n i st) ∧
      (m < i + n → ((extractLoop maxPasses partInfo n i st).txn.coldOps m).mode = .invalid) := by
  induction n generalizing i st with
  | zero => exact ⟨i, Nat.le_refl i, h, fun hlt => absurd hlt (Nat.lt_irrefl i)⟩
  | succ n ih =>
    unfold extractLoop
    split_ifs with hinv
    · exact ⟨i, Nat.le_add_right _ _, h, fun _ => hinv⟩
    · have hnext : i + 1 + n = i + (n + 1) := by omega
      have hrest := ih (i := i + 1) (fun j st hj => hstep j st (by omega))
        (hstep i st (by omega) hinv h)
      rwa [hnext] at hrest

/-- After `i` operations, as long as the transaction can still be accelerated. -/
structure LoopInv (partInfo : PartitionInfo) (txn₀ : Txn) (layout : DeclusteredLayout) (i : ℕ)
    (st : State) : Prop where
  layout_eq : st.layout = layout
  ahead : ∀ j ≥ i, st.txn.coldOps j = txn₀.coldOps j
  coldP_le : st.coldP ≤ i
  modes : ∀ j < i, (txn₀.coldOps j).mode ≠ .invalid
  accel : st.txn.doAccel = true →
    st.coldP + st.hotP1 + st.hotP2 = i ∧ st.hotP2 = 0 ∧
    (List.range st.hotP1).map st.txn.hotOpsPass1 =
      hotPart layout ((List.range i).map (located partInfo txn₀)) ∧
    (∀ r, st.regUsage r = true ↔
      ∃ pr ∈ hotPart layout ((List.range i).map (located partInfo txn₀)), pr.2.regArrayId = r) ∧
    ((hotPart layout ((List.range i).map (located partInfo txn₀))).map
      fun pr => pr.2.regArrayId).Nodup

theorem loopInv_init (partInfo : PartitionInfo) (txn₀ : Txn) (layout : DeclusteredLayout) :
    LoopInv partInfo txn₀ layout 0 (State.init txn₀ layout) where
  layout_eq := rfl
  ahead _ _ := rfl
  coldP_le := Nat.le_refl _
  modes := nofun
  accel _ := ⟨rfl, rfl, rfl, fun _ => ⟨nofun, nofun⟩, List.nodup_nil⟩

/-- The frequency bookkeeping of a cold operation touches nothing else. -/
theorem addCold_eq (st : State) (op : Op) (loc : TupleLocation) :
    ∃ c₁ c₂ v₁ v₂, st.addCold op loc = { st with
      cold1I := c₁, cold2I := c₂, cold1V := v₁, cold2V := v₂
      txn := { st.txn with coldOps := Function.update st.txn.coldOps st.coldP op }
      coldP := st.coldP + 1 } := by
  unfold State.addCold
  split_ifs
  · exact ⟨st.coldP, st.cold2I, loc.distFreq, st.cold2V, rfl⟩
  · exact ⟨st.cold1I, st.coldP, st.cold1V, loc.distFreq, rfl⟩
  · exact ⟨st.cold1I, st.cold2I, st.cold1V, st.cold2V, rfl⟩

/-- The state with the owner of operation `i` filled in. -/
def withLocated (partInfo : PartitionInfo) (txn₀ : Txn) (st : State) (i : ℕ) : State :=
  { st with txn := { st.txn with
      coldOps := Function.update st.txn.coldOps i (located partInfo txn₀ i) } }

/-- One iteration with one pass, on a key the layout knows. -/
theorem extractStep_eq {i : ℕ} (h : LoopInv partInfo txn₀ layout i st)
    (hkey : (layout.virtMap (txn₀.coldOps i).id).isSome = true) :
    extractStep 1 partInfo st i =
      let op := located partInfo txn₀ i
      let loc := layout.location op.id
      if layout.isHot op.id then
        if st.regUsage loc.regArrayId = false then
          (withLocated partInfo txn₀ st i).addPass1 op loc
        else (withLocated partInfo txn₀ st i).giveUp op loc
      else (withLocated partInfo txn₀ st i).addCold op loc := by
  have hop : st.txn.coldOps i = txn₀.coldOps i := h.ahead i (Nat.le_refl i)
  have hsnd := DeclusteredLayout.getLocation_snd_of_isSome hkey
  have hlay := h.layout_eq
  unfold extractStep
  simp only [hop, hlay, hsnd, Nat.reduceEqDiff, false_and, ↓reduceIte, Bool.not_eq_eq_eq_not,
    Bool.not_true]
  have hst : ({ st with
      txn := { st.txn with coldOps := Function.update st.txn.coldOps i (located partInfo txn₀ i) }
      layout := layout } : State) = withLocated partInfo txn₀ st i := by
    rw [withLocated, ← hlay]
  rw [← hst]
  rfl

theorem map_located_succ (partInfo : PartitionInfo) (txn₀ : Txn) (i : ℕ) :
    (List.range (i + 1)).map (located partInfo txn₀) =
      (List.range i).map (located partInfo txn₀) ++ [located partInfo txn₀ i] := by
  rw [List.range_succ, List.map_append, List.map_singleton]

theorem loopInv_step {i : ℕ} (h : LoopInv partInfo txn₀ layout i st)
    (hmode : (txn₀.coldOps i).mode ≠ .invalid)
    (hkey : (layout.virtMap (txn₀.coldOps i).id).isSome = true) :
    LoopInv partInfo txn₀ layout (i + 1) (extractStep 1 partInfo st i) := by
  have hle := h.coldP_le
  have hmodes : ∀ j < i + 1, (txn₀.coldOps j).mode ≠ .invalid := by
    intro j hj
    rcases Nat.lt_succ_iff_lt_or_eq.mp hj with hj | rfl
    · exact h.modes j hj
    · exact hmode
  have hahead : ∀ j ≥ i + 1,
      Function.update st.txn.coldOps i (located partInfo txn₀ i) j = txn₀.coldOps j := by
    intro j hj
    rw [Function.update_of_ne (by omega)]
    exact h.ahead j (by omega)
  set op := located partInfo txn₀ i with hop
  rw [extractStep_eq h hkey]
  simp only [← hop]
  split_ifs with hhot huse
  · -- a hot operation on an array not used yet
    refine ⟨h.layout_eq, hahead, Nat.le_succ_of_le hle, hmodes, fun haccel => ?_⟩
    obtain ⟨hsum, hp2, hlist, huses, hnd⟩ := h.accel haccel
    rw [map_located_succ, hotPart_append, ← hop, if_pos hhot]
    refine ⟨?_, hp2, ?_, ?_, ?_⟩
    · show st.coldP + (st.hotP1 + 1) + st.hotP2 = i + 1
      omega
    · rw [← hlist]
      exact map_range_update _ _ _
    · intro r
      show Function.update st.regUsage (layout.location op.id).regArrayId true r = true ↔ _
      by_cases hr : r = (layout.location op.id).regArrayId
      · subst hr
        rw [Function.update_self]
        exact iff_of_true rfl ⟨_, List.mem_append_right _ List.mem_cons_self, rfl⟩
      · rw [Function.update_of_ne hr, huses]
        constructor
        · rintro ⟨pr, hpr, hreg⟩
          exact ⟨pr, List.mem_append_left _ hpr, hreg⟩
        · rintro ⟨pr, hpr, hreg⟩
          rcases List.mem_append.mp hpr with hpr | hpr
          · exact ⟨pr, hpr, hreg⟩
          · rw [List.mem_singleton.mp hpr] at hreg
            exact absurd hreg.symm hr
    · rw [List.map_append, List.map_singleton, ← List.concat_eq_append, List.nodup_concat]
      refine ⟨fun hmem => ?_, hnd⟩
      have hused := (huses _).mpr (List.mem_map.mp hmem)
      rw [huse] at hused
      exact absurd hused Bool.false_ne_true
  · -- a second operation on an array: the transaction is not accelerated
    exact ⟨h.layout_eq, hahead, Nat.le_succ_of_le hle, hmodes, nofun⟩
  · obtain ⟨c₁, c₂, v₁, v₂, heq⟩ := addCold_eq (withLocated partInfo txn₀ st i) op
      (layout.location op.id)
    rw [heq]
    refine ⟨h.layout_eq, ?_, Nat.succ_le_succ hle, hmodes, fun haccel => ?_⟩
    · -- the compacted entry is behind the loop index
      intro j hj
      show Function.update (Function.update st.txn.coldOps i op) st.coldP op j = _
      rw [Function.update_of_ne (by omega), hahead j hj]
    · obtain ⟨hsum, hp2, hlist, huses, hnd⟩ := h.accel haccel
      rw [map_located_succ, hotPart_append, ← hop, if_neg hhot, List.append_nil]
      refine ⟨?_, hp2, hlist, huses, hnd⟩
      show st.coldP + 1 + st.hotP1 + st.hotP2 = i + 1
      omega

/-- The loop. -/
theorem loopInv_loop (partInfo : PartitionInfo)
    (hkeys : ∀ j < nOps, (txn₀.coldOps j).mode ≠ .invalid →
      (layout.virtMap (txn₀.coldOps j).id).isSome = true) :
    ∃ k ≤ nOps, LoopInv partInfo txn₀ layout k
      (extractLoop 1 partInfo nOps 0 (State.init txn₀ layout)) := by
  have hstep : ∀ j st, j < 0 + nOps → (st.txn.coldOps j).mode ≠ .invalid →
      LoopInv partInfo txn₀ layout j st →
      LoopInv partInfo txn₀ layout (j + 1) (extractStep 1 partInfo st j) := by
    intro j st hj hmode h
    rw [h.ahead j (Nat.le_refl j)] at hmode
    exact loopInv_step h hmode (hkeys j (by omega) hmode)
  obtain ⟨k, hk, hinv, -⟩ := extractLoop_induct 1 partInfo hstep (loopInv_init partInfo txn₀ layout)
  exact ⟨k, by omega, hinv⟩

/-- What `extract_hot_cold` makes of a transaction on known keys that it accelerates. -/
structure Accelerated (partInfo : PartitionInfo) (txn₀ : Txn) (layout : DeclusteredLayout)
    (txn : Txn) : Prop where
  doAccel : txn.doAccel = true
  modes : ∀ j < nOps, (txn₀.coldOps j).mode ≠ .invalid
  hot_eq : txn.hot = hotPart layout ((List.range nOps).map (located partInfo txn₀))
  distinct : (txn.hot.map fun pr => pr.2.regArrayId).Nodup

theorem mode_of_mem_hotPart {n : ℕ} (h : ∀ j < n, (txn₀.coldOps j).mode ≠ .invalid) {pr : HotOp}
    (hpr : pr ∈ hotPart layout ((List.range n).map (located partInfo txn₀))) :
    pr.1.mode ≠ .invalid := by
  obtain ⟨op, hop, rfl⟩ := List.mem_map.mp hpr
  obtain ⟨j, hj, rfl⟩ := List.mem_map.mp (List.mem_of_mem_filter hop)
  exact h j (List.mem_range.mp hj)

/-- **One pass.** An accelerated transaction carries exactly its operations on hot keys, each on a
register array of its own. -/
theorem accelerated_extractHotCold {txn : Txn} {layout' : DeclusteredLayout}
    (hkeys : ∀ j < nOps, (txn₀.coldOps j).mode ≠ .invalid →
      (layout.virtMap (txn₀.coldOps j).id).isSome = true)
    (h : extractHotCold 1 partInfo txn₀ layout = some (txn, layout'))
    (haccel : txn.doAccel = true) : Accelerated partInfo txn₀ layout txn ∧ layout' = layout := by
  obtain ⟨k, hk, hinv⟩ := loopInv_loop partInfo hkeys
  unfold extractHotCold at h
  set st := extractLoop 1 partInfo nOps 0 (State.init txn₀ layout)
  simp only at h
  split_ifs at h with hacc hall
  · obtain ⟨hfin, hlay⟩ := Prod.mk.inj (Option.some.inj h)
    obtain ⟨hsum, hp2, hlist, -, hnd⟩ := hinv.accel hacc
    -- the assertion on the counters says that all operations were seen
    obtain rfl : k = nOps := by omega
    have hhot : txn.hot = (List.range st.hotP1).map st.txn.hotOpsPass1 := by
      rw [← hfin]
      refine terminated_update (by omega) (fun pr hpr => ?_) (by simp)
      rw [hlist] at hpr
      exact decide_eq_false (mode_of_mem_hotPart hinv.modes hpr)
    refine ⟨⟨haccel, hinv.modes, hhot.trans hlist, ?_⟩, hlay ▸ hinv.layout_eq⟩
    rw [hhot, hlist]
    exact hnd
  · obtain ⟨hfin, -⟩ := Prod.mk.inj (Option.some.inj h)
    rw [← hfin] at haccel
    exact absurd haccel hacc

/-! ### The hottest cold operation -/

/-- The cold operations found so far, for any number of passes: they know the owners of their keys,
and the hottest one is among them. -/
structure ColdInv (partInfo : PartitionInfo) (i : ℕ) (st : State) : Prop where
  coldP_le : st.coldP ≤ i
  owner : ∀ j < st.coldP,
    (st.txn.coldOps j).locInfo = partInfo.location (st.txn.coldOps j).id
  hottest : 0 < st.cold1V → st.cold1I < st.coldP
  unset : st.txn.hottestColdI1 = none

theorem coldInv_addCold {i : ℕ} (h : ColdInv partInfo i st) (op : Op) (loc : TupleLocation)
    (hop : op.locInfo = partInfo.location op.id) :
    ColdInv partInfo (i + 1) (st.addCold op loc) := by
  have howner : ∀ j < st.coldP + 1, (Function.update st.txn.coldOps st.coldP op j).locInfo =
      partInfo.location (Function.update st.txn.coldOps st.coldP op j).id := by
    intro j hj
    by_cases hjp : j = st.coldP
    · rw [hjp, Function.update_self, hop]
    · rw [Function.update_of_ne hjp]
      exact h.owner j (by omega)
  unfold State.addCold
  split_ifs
  · exact ⟨Nat.succ_le_succ h.coldP_le, howner, fun _ => Nat.lt_succ_self _, h.unset⟩
  · exact ⟨Nat.succ_le_succ h.coldP_le, howner, fun hv => Nat.lt_succ_of_lt (h.hottest hv), h.unset⟩
  · exact ⟨Nat.succ_le_succ h.coldP_le, howner, fun hv => Nat.lt_succ_of_lt (h.hottest hv), h.unset⟩

theorem coldInv_step {i : ℕ} (maxPasses : ℕ) (h : ColdInv partInfo i st) :
    ColdInv partInfo (i + 1) (extractStep maxPasses partInfo st i) := by
  have hle := h.coldP_le
  unfold extractStep
  set op : Op := { st.txn.coldOps i with
    locInfo := partInfo.location (st.txn.coldOps i).id } with hop
  set st' : State := { st with
    txn := { st.txn with coldOps := Function.update st.txn.coldOps i op }
    layout := (st.layout.getLocation op.id).2 } with hst'
  -- noting the owner of operation `i` is no change among the cold operations
  have h' : ColdInv partInfo i st' := by
    refine ⟨hle, fun j hj => ?_, h.hottest, h.unset⟩
    have hne : j ≠ i := Nat.ne_of_lt (Nat.lt_of_lt_of_le hj hle)
    have hsame : st'.txn.coldOps j = st.txn.coldOps j := Function.update_of_ne hne _ _
    rw [hsame]
    exact h.owner j hj
  have hkeep : ColdInv partInfo (i + 1) st' :=
    ⟨Nat.le_succ_of_le hle, h'.owner, h'.hottest, h'.unset⟩
  simp only
  split_ifs
  · exact ⟨hkeep.coldP_le, hkeep.owner, hkeep.hottest, hkeep.unset⟩
  · exact ⟨hkeep.coldP_le, hkeep.owner, hkeep.hottest, hkeep.unset⟩
  · exact ⟨hkeep.coldP_le, hkeep.owner, hkeep.hottest, hkeep.unset⟩
  · exact coldInv_addCold h' op _ rfl

/-- The operation at `hottest_cold_i1` of a loaded transaction knows the owner of its key. -/
theorem owner_of_hottestColdI1 {maxPasses i : ℕ} {txn : Txn} {layout' : DeclusteredLayout}
    (hnone : txn₀.hottestColdI1 = none)
    (h : extractHotCold maxPasses partInfo txn₀ layout = some (txn, layout'))
    (hi : txn.hottestColdI1 = some i) :
    (txn.coldOps i).locInfo = partInfo.location (txn.coldOps i).id := by
  obtain ⟨k, -, hinv, -⟩ := extractLoop_induct maxPasses partInfo (n := nOps)
    (fun _ _ _ _ => coldInv_step maxPasses)
    (show ColdInv partInfo 0 (State.init txn₀ layout) from
      ⟨Nat.le_refl _, nofun, fun hv => absurd hv (Nat.lt_irrefl 0), hnone⟩)
  unfold extractHotCold at h
  set st := extractLoop maxPasses partInfo nOps 0 (State.init txn₀ layout)
  simp only at h
  split_ifs at h with hacc hall
  · obtain ⟨rfl, -⟩ := Prod.mk.inj (Option.some.inj h)
    simp only [finishAccel] at hi
    split_ifs at hi with hv
    · obtain rfl := Option.some.inj hi
      have hlt := hinv.hottest hv
      -- the terminator stands behind the cold operations
      have hcold : (finishAccel maxPasses st).coldOps st.cold1I = st.txn.coldOps st.cold1I := by
        unfold finishAccel terminate
        simp only
        split_ifs
        · exact Function.update_of_ne (Nat.ne_of_lt hlt) _ _
        · rfl
      rw [hcold]
      exact hinv.owner _ hlt
    · rw [hinv.unset] at hi
      exact nomatch hi
  · obtain ⟨rfl, -⟩ := Prod.mk.inj (Option.some.inj h)
    exact nomatch hinv.unset.symm.trans hi

end HotCold

end P4db
