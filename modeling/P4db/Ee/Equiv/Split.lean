import P4db.Ee.Equiv.HotCold
import P4db.Layout.Equiv.DeclusteredLayout

/-!
# Splitting conserves the operations

`extract_hot_cold` with one or two passes, on a loaded transaction whose operations are all valid.

* `extractStep_classified`: what one iteration does, by the kind of the operation.
* `SplitInv`: the operations seen so far are in the three lists, the cold ones in their order; the
  arrays that the source uses to find a conflicting operation agree with the lists.
* `splitInv_loop`: the loop keeps this, and its subscripts are in range.
* `extractHotCold_conserves`: the three lists of an accelerated transaction are a permutation of its
  operations, and so is `cold_ops` of any other.
-/

namespace P4db

theorem set_eq_self {α : Type*} {l : List α} {j : ℕ} {x : α} (h : l[j]? = some x) :
    l.set j x = l := by
  obtain ⟨hlt, rfl⟩ := List.getElem?_eq_some_iff.mp h
  exact List.set_getElem_self hlt

/-- An entry that is replaced goes to another list. -/
theorem perm_set_append {α : Type*} {l l' : List α} {j : ℕ} (hj : j < l.length) (x : α) :
    (l.set j x ++ (l' ++ [l[j]])).Perm ((l ++ l') ++ [x]) := by
  have hset : (l.set j x).Perm (x :: l.eraseIdx j) := List.set_perm_cons_eraseIdx hj x
  have hget : (l[j] :: l.eraseIdx j).Perm l := List.getElem_cons_eraseIdx_perm hj
  calc (l.set j x ++ (l' ++ [l[j]])).Perm (x :: l.eraseIdx j ++ (l' ++ [l[j]])) :=
    hset.append_right _
    _ = x :: (l.eraseIdx j ++ l' ++ [l[j]]) := by simp
    _ |>.Perm (x :: (l[j] :: (l.eraseIdx j ++ l'))) := (List.perm_append_singleton _ _).cons x
    _ |>.Perm (x :: (l ++ l')) := (hget.append_right l').cons x
    _ |>.Perm ((l ++ l') ++ [x]) := (List.perm_append_singleton _ _).symm

namespace HotCold

open State

/-- The register array of a hot operation. -/
def reg (pr : HotOp) : ℕ := pr.2.regArrayId

/-! ### The lists of the loop -/

section Lists

variable (st : State)

/-- The first pass so far. -/
def pass1 : List HotOp := (List.range st.hotP1).map st.txn.hotOpsPass1

/-- The second pass so far. -/
def pass2 : List HotOp := (List.range st.hotP2).map st.txn.hotOpsPass2

/-- The cold operations so far. -/
def colds : List Op := (List.range st.coldP).map st.txn.coldOps

end Lists

/-- The first `i` operations, with the nodes that own their keys. -/
def seen (partInfo : PartitionInfo) (txn₀ : Txn) (i : ℕ) : List Op :=
  (List.range i).map (located partInfo txn₀)

/-- The operations on keys that are not hot. -/
def coldPart (layout : DeclusteredLayout) (ops : List Op) : List Op :=
  ops.filter fun op => !layout.isHot op.id

theorem coldPart_append (layout : DeclusteredLayout) (ops : List Op) (op : Op) :
    coldPart layout (ops ++ [op]) =
      coldPart layout ops ++ if layout.isHot op.id then [] else [op] := by
  rw [coldPart, List.filter_append]
  congr 1
  by_cases h : layout.isHot op.id <;> simp [h]

/-- Hot and cold operations together. -/
theorem perm_hotPart_coldPart (layout : DeclusteredLayout) (ops : List Op) :
    (coldPart layout ops ++ (hotPart layout ops).map Prod.fst).Perm ops := by
  have hfst : (hotPart layout ops).map Prod.fst = ops.filter fun op => layout.isHot op.id := by
    unfold hotPart
    rw [List.map_map]
    exact List.map_id _
  rw [hfst]
  exact List.perm_append_comm.trans (List.filter_append_perm _ _)

theorem location_of_mem_hotPart {layout : DeclusteredLayout} {ops : List Op} {pr : HotOp}
    (h : pr ∈ hotPart layout ops) :
    layout.isHot pr.1.id = true ∧ pr.2 = layout.location pr.1.id := by
  obtain ⟨op, hop, rfl⟩ := List.mem_map.mp h
  exact ⟨(List.mem_filter.mp hop).2, rfl⟩

/-! ### One iteration -/

variable {maxPasses : ℕ} {partInfo : PartitionInfo} {txn₀ : Txn} {layout : DeclusteredLayout}
  {st st' : State} {i : ℕ}

/-- The state before operation `i`: it and the later ones are as they were loaded. -/
structure At (txn₀ : Txn) (layout : DeclusteredLayout) (i : ℕ) (st : State) : Prop where
  answers : ∀ k, (st.layout.getLocation k).1 = (layout.getLocation k).1
  ahead : ∀ j ≥ i, st.txn.coldOps j = txn₀.coldOps j
  coldP_le : st.coldP ≤ i

/-- The state after the lookup of operation `i`. -/
def look (partInfo : PartitionInfo) (txn₀ : Txn) (st : State) (i : ℕ) : State :=
  { st with
    txn := { st.txn with coldOps := Function.update st.txn.coldOps i (located partInfo txn₀ i) }
    layout := (st.layout.getLocation (txn₀.coldOps i).id).2 }

/-- The four ways in which an iteration goes on after the lookup. -/
inductive Classified (maxPasses : ℕ) (layout : DeclusteredLayout) (op : Op) (st st' : State) : Prop
  | first (hhot : layout.isHot op.id = true)
      (hfree : st.regUsage (layout.location op.id).regArrayId = false)
      (heq : st' = st.addPass1 op (layout.location op.id))
  | second (hhot : layout.isHot op.id = true)
      (hused : st.regUsage (layout.location op.id).regArrayId = true) (hpasses : maxPasses = 2)
      (hfree : st.regUsage2 (layout.location op.id).regArrayId = false)
      (hroom : st.nPass2Ops < maxOpsPass2Accel)
      (heq : st' = st.addPass2 op (layout.location op.id))
  | giveUp (hhot : layout.isHot op.id = true)
      (hused : st.regUsage (layout.location op.id).regArrayId = true)
      (heq : st' = st.giveUp op (layout.location op.id))
  | cold (hcold : layout.isHot op.id = false) (heq : st' = st.addCold op (layout.location op.id))

variable (maxPasses partInfo) in
theorem extractStep_classified (h : At txn₀ layout i st) :
    Classified maxPasses layout (located partInfo txn₀ i) (look partInfo txn₀ st i)
      (extractStep maxPasses partInfo st i) := by
  have hop : st.txn.coldOps i = txn₀.coldOps i := h.ahead i (Nat.le_refl i)
  have hans := h.answers (txn₀.coldOps i).id
  have hhot : (st.layout.getLocation (txn₀.coldOps i).id).1.1 = layout.isHot (txn₀.coldOps i).id :=
    congrArg Prod.fst hans
  have hloc : (st.layout.getLocation (txn₀.coldOps i).id).1.2 =
      layout.location (txn₀.coldOps i).id :=
    congrArg Prod.snd hans
  have hnot : ∀ b : Bool, ¬(!b) = true → b = true := by decide
  unfold extractStep
  simp only [hop, hhot, hloc]
  split_ifs with h₁ h₂ h₃
  · exact .first h₁ (Bool.not_eq_true' _ ▸ h₂) rfl
  · exact .second h₁ (hnot _ h₂) h₃.1 h₃.2.1 h₃.2.2 rfl
  · exact .giveUp h₁ (hnot _ h₂) rfl
  · exact .cold (Bool.not_eq_true _ ▸ h₁) rfl

/-- The subscripts of an iteration, when the arrays agree. -/
theorem stepInRange_of (h : At txn₀ layout i st) (hl : layout.Reachable)
    (h₁ : st.hotP1 < nOps) (h₂ : st.nPass2Ops < maxOpsPass2Accel → st.hotP2 < maxOpsPass2Accel)
    (hc : st.coldP < nOps) (hbuf : ∀ r, st.regUsage r = true → st.hotReorderBuf r < nOps) :
    StepInRange maxPasses st i := by
  have hop : st.txn.coldOps i = txn₀.coldOps i := h.ahead i (Nat.le_refl i)
  have hloc : (st.layout.getLocation (txn₀.coldOps i).id).1.2 =
      layout.location (txn₀.coldOps i).id :=
    congrArg Prod.snd (h.answers _)
  obtain ⟨hreg, hlock⟩ := hl.inRange_location (txn₀.coldOps i).id
  unfold StepInRange
  simp only [hop, hloc]
  split_ifs with hhot hfree hroom
  · exact ⟨hreg, h₁, hlock⟩
  · exact ⟨hreg, hbuf _ (by simpa using hfree), h₂ hroom.2.2, hlock⟩
  · exact ⟨hreg, h₁⟩
  · exact hc

theorem seen_succ (partInfo : PartitionInfo) (txn₀ : Txn) (i : ℕ) :
    seen partInfo txn₀ (i + 1) = seen partInfo txn₀ i ++ [located partInfo txn₀ i] :=
  map_located_succ partInfo txn₀ i

/-- A cold operation is put behind those that were found before. -/
theorem colds_addCold (st : State) (op : Op) (loc : TupleLocation) :
    colds (st.addCold op loc) = colds st ++ [op] := by
  obtain ⟨c₁, c₂, v₁, v₂, heq⟩ := addCold_eq st op loc
  rw [heq]
  exact map_range_update _ _ _

/-- Where the operation is read from does not matter to the cold operations found before. -/
theorem colds_look (h : At txn₀ layout i st) : colds (look partInfo txn₀ st i) = colds st :=
  map_range_update_of_le _ h.coldP_le _

theorem At.ahead_look (h : At txn₀ layout i st) : ∀ j ≥ i + 1,
    (look partInfo txn₀ st i).txn.coldOps j = txn₀.coldOps j := by
  intro j hj
  show Function.update st.txn.coldOps i _ j = _
  rw [Function.update_of_ne (by omega)]
  exact h.ahead j (by omega)

variable (maxPasses partInfo) in
theorem At.step (h : At txn₀ layout i st) :
    At txn₀ layout (i + 1) (extractStep maxPasses partInfo st i) := by
  have hle := h.coldP_le
  have hans : ∀ k, ((look partInfo txn₀ st i).layout.getLocation k).1 =
      (layout.getLocation k).1 := by
    intro k
    rw [← h.answers k]
    exact DeclusteredLayout.getLocation_getLocation _ _ _
  cases extractStep_classified maxPasses partInfo h with
  | first _ _ heq | second _ _ _ _ _ heq | giveUp _ _ heq =>
    rw [heq]
    exact ⟨hans, h.ahead_look, Nat.le_succ_of_le hle⟩
  | cold _ heq =>
    obtain ⟨c₁, c₂, v₁, v₂, hadd⟩ := addCold_eq (look partInfo txn₀ st i)
      (located partInfo txn₀ i) (layout.location (located partInfo txn₀ i).id)
    rw [heq, hadd]
    refine ⟨hans, fun j hj => ?_, Nat.succ_le_succ hle⟩
    -- the cold list is behind the loop index
    show Function.update (look partInfo txn₀ st i).txn.coldOps st.coldP _ j = _
    rw [Function.update_of_ne (by omega)]
    exact h.ahead_look j hj

/-! ### The lists during the loop -/

/-- After `i` operations. -/
structure SplitInv (maxPasses : ℕ) (partInfo : PartitionInfo) (txn₀ : Txn)
    (layout : DeclusteredLayout) (i : ℕ) (st : State) : Prop where
  at' : At txn₀ layout i st
  modes : ∀ j < i, (txn₀.coldOps j).mode ≠ .invalid
  cold : colds st = coldPart layout (seen partInfo txn₀ i)
  hot : (pass1 st ++ pass2 st).Perm (hotPart layout (seen partInfo txn₀ i))
  buf : ∀ r, st.regUsage r = true →
    st.hotReorderBuf r < st.hotP1 ∧ reg (st.txn.hotOpsPass1 (st.hotReorderBuf r)) = r
  used : ∀ y ∈ pass2 st, st.regUsage (reg y) = true
  used2 : ∀ r, st.regUsage2 r = true ↔ r ∈ (pass2 st).map reg
  distinct2 : ((pass2 st).map reg).Nodup
  count2 : st.nPass2Ops = st.hotP2
  le2 : st.hotP2 ≤ maxOpsPass2Accel
  one : maxPasses ≠ 2 → st.hotP2 = 0 ∧ st.txn.hotOpsPass2 = txn₀.hotOpsPass2
  accel : st.txn.doAccel = true →
    ((pass1 st).map reg).Nodup ∧ ∀ pr ∈ pass1 st, st.regUsage (reg pr) = true

theorem splitInv_init (maxPasses : ℕ) (partInfo : PartitionInfo) (txn₀ : Txn)
    (layout : DeclusteredLayout) :
    SplitInv maxPasses partInfo txn₀ layout 0 (State.init txn₀ layout) where
  at' := ⟨fun _ => rfl, fun _ _ => rfl, Nat.le_refl 0⟩
  modes := nofun
  cold := rfl
  hot := List.Perm.refl _
  buf := nofun
  used := nofun
  used2 _ := ⟨nofun, nofun⟩
  distinct2 := List.nodup_nil
  count2 := rfl
  le2 := Nat.zero_le _
  one _ := ⟨rfl, rfl⟩
  accel _ := ⟨List.nodup_nil, nofun⟩

/-- The operation in the first pass that the source finds for a register array. -/
def mate (st : State) (r : ℕ) : HotOp := st.txn.hotOpsPass1 (st.hotReorderBuf r)

section Step

variable (st : State) (op : Op) (loc : TupleLocation)

theorem pass1_addPass1 : pass1 (st.addPass1 op loc) = pass1 st ++ [(op, loc)] :=
  map_range_update _ _ _

theorem pass1_giveUp : pass1 (st.giveUp op loc) = pass1 st ++ [(op, loc)] :=
  map_range_update _ _ _

/-- Whether the operation that was there stays in the first pass. -/
def keeps : Bool :=
  TupleLocation.totalOrderGt (mate st loc.regArrayId).2.distFreq (mate st loc.regArrayId).1.id
    loc.distFreq op.id

theorem pass1_addPass2 : pass1 (st.addPass2 op loc) =
    if keeps st op loc then pass1 st else (pass1 st).set (st.hotReorderBuf loc.regArrayId)
      (op, loc) := by
  unfold State.addPass2 pass1 keeps mate
  dsimp only
  split_ifs
  · rfl
  · exact map_range_set _ _ _ _

theorem pass2_addPass2 : pass2 (st.addPass2 op loc) =
    pass2 st ++ [if keeps st op loc then (op, loc) else mate st loc.regArrayId] :=
  map_range_update _ _ _

end Step

/-- What two lists of hot operations on the first `i` operations become with the next one. -/
theorem hot_succ {l : List HotOp} (hhot : layout.isHot (located partInfo txn₀ i).id = true)
    (h : l.Perm (hotPart layout (seen partInfo txn₀ i) ++
      [(located partInfo txn₀ i, layout.location (located partInfo txn₀ i).id)])) :
    l.Perm (hotPart layout (seen partInfo txn₀ (i + 1))) := by
  rw [seen_succ, hotPart_append, if_pos hhot]
  exact h

theorem cold_succ (h : SplitInv maxPasses partInfo txn₀ layout i st)
    (hhot : layout.isHot (located partInfo txn₀ i).id = true) :
    colds (look partInfo txn₀ st i) = coldPart layout (seen partInfo txn₀ (i + 1)) := by
  rw [colds_look h.at', h.cold, seen_succ, coldPart_append, if_pos hhot, List.append_nil]

/-- An operation that is added to the first pass. -/
theorem SplitInv.perm_append_pass1 (h : SplitInv maxPasses partInfo txn₀ layout i st) (pr : HotOp) :
    (pass1 st ++ [pr] ++ pass2 st).Perm (hotPart layout (seen partInfo txn₀ i) ++ [pr]) :=
  calc (pass1 st ++ [pr] ++ pass2 st).Perm (pass1 st ++ pass2 st ++ [pr]) := by
        rw [List.append_assoc, List.append_assoc]
        exact List.perm_append_comm.append_left _
    _ |>.Perm _ := h.hot.append_right _

section AddPass2

variable (h : SplitInv maxPasses partInfo txn₀ layout i st) (op : Op) {loc : TupleLocation}
  (hused : st.regUsage loc.regArrayId = true)
include h hused

theorem hotReorderBuf_lt : st.hotReorderBuf loc.regArrayId < (pass1 st).length := by
  simpa [pass1] using (h.buf _ hused).1

theorem getElem_hotReorderBuf :
    (pass1 st)[st.hotReorderBuf loc.regArrayId]? = some (mate st loc.regArrayId) := by
  rw [List.getElem?_eq_getElem (hotReorderBuf_lt h hused)]
  simp [pass1, mate]

theorem reg_mate : reg (mate st loc.regArrayId) = loc.regArrayId := (h.buf _ hused).2

/-- The operation that comes in is put into one of the passes, and its mate into the other. -/
theorem perm_addPass2 :
    (pass1 ((look partInfo txn₀ st i).addPass2 op loc) ++
      pass2 ((look partInfo txn₀ st i).addPass2 op loc)).Perm
      (pass1 st ++ pass2 st ++ [(op, loc)]) := by
  have hlt := hotReorderBuf_lt h hused
  have hget : (pass1 st)[st.hotReorderBuf loc.regArrayId] = mate st loc.regArrayId :=
    (List.getElem_eq_iff hlt).mpr (getElem_hotReorderBuf h hused)
  have hpass1 : pass1 ((look partInfo txn₀ st i).addPass2 op loc) = if keeps st op loc then pass1 st
      else (pass1 st).set (st.hotReorderBuf loc.regArrayId) (op, loc) := pass1_addPass2 _ _ _
  have hpass2 : pass2 ((look partInfo txn₀ st i).addPass2 op loc) = pass2 st ++
      [if keeps st op loc then (op, loc) else mate st loc.regArrayId] := pass2_addPass2 _ _ _
  rw [hpass1, hpass2]
  split_ifs
  · rw [← List.append_assoc]
  · rw [← hget]
    exact perm_set_append hlt (op, loc)

/-- The register arrays of the first pass stay what they are. -/
theorem map_reg_pass1_addPass2 :
    (pass1 ((look partInfo txn₀ st i).addPass2 op loc)).map reg = (pass1 st).map reg := by
  have hpass1 : pass1 ((look partInfo txn₀ st i).addPass2 op loc) = if keeps st op loc then pass1 st
      else (pass1 st).set (st.hotReorderBuf loc.regArrayId) (op, loc) := pass1_addPass2 _ _ _
  rw [hpass1]
  split_ifs
  · rfl
  · rw [List.map_set]
    apply set_eq_self
    rw [List.getElem?_map, getElem_hotReorderBuf h hused, Option.map_some, reg_mate h hused]
    rfl

theorem map_reg_pass2_addPass2 :
    (pass2 ((look partInfo txn₀ st i).addPass2 op loc)).map reg =
    (pass2 st).map reg ++ [loc.regArrayId] := by
  have hpass2 : pass2 ((look partInfo txn₀ st i).addPass2 op loc) = pass2 st ++
      [if keeps st op loc then (op, loc) else mate st loc.regArrayId] := pass2_addPass2 _ _ _
  rw [hpass2, List.map_append]
  congr 1
  split_ifs
  · rfl
  · exact congrArg (fun r => [r]) (reg_mate h hused)

/-- The operation in the first pass that was found for a register array is still one on this. -/
theorem reg_hotOpsPass1_addPass2 {r : ℕ} (hr : st.regUsage r = true) :
    reg (((look partInfo txn₀ st i).addPass2 op loc).txn.hotOpsPass1 (st.hotReorderBuf r)) = r := by
  have hreg := (h.buf r hr).2
  show reg ((if keeps st op loc then st.txn.hotOpsPass1 else
    Function.update st.txn.hotOpsPass1 (st.hotReorderBuf loc.regArrayId) (op, loc))
      (st.hotReorderBuf r)) = r
  split_ifs
  · exact hreg
  · by_cases heq : st.hotReorderBuf r = st.hotReorderBuf loc.regArrayId
    · rw [heq, Function.update_self, ← hreg, heq]
      exact (reg_mate h hused).symm
    · rw [Function.update_of_ne heq]
      exact hreg

end AddPass2

section Cases

variable (h : SplitInv maxPasses partInfo txn₀ layout i st)
  (hmodes : ∀ j < i + 1, (txn₀.coldOps j).mode ≠ .invalid)
  (hhot : layout.isHot (located partInfo txn₀ i).id = true)
include h hmodes hhot

/-- The first operation on a register array. -/
theorem splitInv_addPass1
    (hfree : st.regUsage (layout.location (located partInfo txn₀ i).id).regArrayId = false)
    (hat : At txn₀ layout (i + 1) ((look partInfo txn₀ st i).addPass1 (located partInfo txn₀ i)
      (layout.location (located partInfo txn₀ i).id))) :
    SplitInv maxPasses partInfo txn₀ layout (i + 1) ((look partInfo txn₀ st i).addPass1
      (located partInfo txn₀ i) (layout.location (located partInfo txn₀ i).id)) := by
  set op := located partInfo txn₀ i
  set loc := layout.location op.id
  have hpass1 : pass1 ((look partInfo txn₀ st i).addPass1 op loc) = pass1 st ++ [(op, loc)] :=
    pass1_addPass1 _ _ _
  refine { h with
    at' := hat, modes := hmodes, cold := cold_succ h hhot, hot := hot_succ hhot ?_, buf := ?_
    used := ?_, accel := ?_ }
  · rw [hpass1]
    exact h.perm_append_pass1 (op, loc)
  · intro r hr
    show Function.update st.hotReorderBuf loc.regArrayId st.hotP1 r < st.hotP1 + 1 ∧
      reg (Function.update st.txn.hotOpsPass1 st.hotP1 (op, loc)
        (Function.update st.hotReorderBuf loc.regArrayId st.hotP1 r)) = r
    by_cases heq : r = loc.regArrayId
    · subst heq
      rw [Function.update_self, Function.update_self]
      exact ⟨Nat.lt_succ_self _, rfl⟩
    · have hr' : st.regUsage r = true := by
        rw [← hr]
        exact (Function.update_of_ne heq _ _).symm
      obtain ⟨hlt, hreg⟩ := h.buf r hr'
      rw [Function.update_of_ne heq, Function.update_of_ne (Nat.ne_of_lt hlt)]
      exact ⟨Nat.lt_succ_of_lt hlt, hreg⟩
  · intro y hy
    show Function.update st.regUsage loc.regArrayId true (reg y) = true
    rw [Function.update_apply]
    split_ifs
    · rfl
    · exact h.used y hy
  · intro haccel
    obtain ⟨hnd, hused⟩ := h.accel haccel
    rw [hpass1, List.map_append, List.map_singleton, ← List.concat_eq_append, List.nodup_concat]
    have hnew : ∀ pr ∈ pass1 st, reg pr ≠ loc.regArrayId := by
      intro pr hpr heq
      have := hused pr hpr
      rw [heq, hfree] at this
      cases this
    refine ⟨⟨fun hmem => ?_, hnd⟩, ?_⟩
    · obtain ⟨pr, hpr, heq⟩ := List.mem_map.mp hmem
      exact hnew pr hpr heq
    · intro pr hpr
      show Function.update st.regUsage loc.regArrayId true (reg pr) = true
      rcases List.mem_append.mp hpr with hpr | hpr
      · rw [Function.update_of_ne (hnew pr hpr)]
        exact hused pr hpr
      · rw [List.mem_singleton.mp hpr]
        exact Function.update_self _ _ _

/-- An operation that does not fit. -/
theorem splitInv_giveUp
    (hat : At txn₀ layout (i + 1) ((look partInfo txn₀ st i).giveUp (located partInfo txn₀ i)
      (layout.location (located partInfo txn₀ i).id))) :
    SplitInv maxPasses partInfo txn₀ layout (i + 1) ((look partInfo txn₀ st i).giveUp
      (located partInfo txn₀ i) (layout.location (located partInfo txn₀ i).id)) := by
  set op := located partInfo txn₀ i
  set loc := layout.location op.id
  have hpass1 : pass1 ((look partInfo txn₀ st i).giveUp op loc) = pass1 st ++ [(op, loc)] :=
    pass1_giveUp _ _ _
  refine { h with
    at' := hat, modes := hmodes, cold := cold_succ h hhot, hot := hot_succ hhot ?_, buf :=
    ?_, accel := nofun }
  · rw [hpass1]
    exact h.perm_append_pass1 (op, loc)
  · intro r hr
    obtain ⟨hlt, hreg⟩ := h.buf r hr
    show st.hotReorderBuf r < st.hotP1 + 1 ∧
      reg (Function.update st.txn.hotOpsPass1 st.hotP1 (op, loc) (st.hotReorderBuf r)) = r
    rw [Function.update_of_ne (Nat.ne_of_lt hlt)]
    exact ⟨Nat.lt_succ_of_lt hlt, hreg⟩

/-- The second operation on a register array. -/
theorem splitInv_addPass2
    (hused : st.regUsage (layout.location (located partInfo txn₀ i).id).regArrayId = true)
    (hpasses : maxPasses = 2)
    (hfree : st.regUsage2 (layout.location (located partInfo txn₀ i).id).regArrayId = false)
    (hroom : st.nPass2Ops < maxOpsPass2Accel)
    (hat : At txn₀ layout (i + 1) ((look partInfo txn₀ st i).addPass2 (located partInfo txn₀ i)
      (layout.location (located partInfo txn₀ i).id))) :
    SplitInv maxPasses partInfo txn₀ layout (i + 1) ((look partInfo txn₀ st i).addPass2
      (located partInfo txn₀ i) (layout.location (located partInfo txn₀ i).id)) := by
  set op := located partInfo txn₀ i
  set loc := layout.location op.id
  set st' := (look partInfo txn₀ st i).addPass2 op loc
  have hregs1 : (pass1 st').map reg = (pass1 st).map reg := map_reg_pass1_addPass2 h op hused
  have hregs2 : (pass2 st').map reg = (pass2 st).map reg ++ [loc.regArrayId] :=
    map_reg_pass2_addPass2 h op hused
  refine { h with
    at' := hat, modes := hmodes, cold := cold_succ h hhot, hot := hot_succ hhot ?_, buf := ?_
    used := ?_, used2 := ?_
    distinct2 := ?_, count2 := ?_, le2 := ?_, one := fun hne => absurd hpasses hne, accel := ?_ }
  · exact (perm_addPass2 h op hused).trans (h.hot.append_right _)
  · exact fun r hr => ⟨(h.buf r hr).1, reg_hotOpsPass1_addPass2 h op hused hr⟩
  · intro y hy
    have hmem : reg y ∈ (pass2 st').map reg := List.mem_map_of_mem hy
    rw [hregs2, List.mem_append, List.mem_singleton] at hmem
    show st.regUsage (reg y) = true
    rcases hmem with hmem | hmem
    · obtain ⟨z, hz, hreg⟩ := List.mem_map.mp hmem
      exact hreg ▸ h.used z hz
    · exact hmem ▸ hused
  · intro r
    show Function.update st.regUsage2 loc.regArrayId true r = true ↔ _
    rw [hregs2, List.mem_append, List.mem_singleton]
    by_cases heq : r = loc.regArrayId
    · rw [heq, Function.update_self]
      simp
    · rw [Function.update_of_ne heq, h.used2, or_iff_left heq]
  · rw [hregs2, ← List.concat_eq_append, List.nodup_concat, ← h.used2, hfree]
    exact ⟨Bool.false_ne_true, h.distinct2⟩
  · show st.nPass2Ops + 1 = st.hotP2 + 1
    rw [h.count2]
  · show st.hotP2 + 1 ≤ maxOpsPass2Accel
    rw [h.count2] at hroom
    exact hroom
  · intro haccel
    obtain ⟨hnd, hall⟩ := h.accel haccel
    rw [hregs1]
    refine ⟨hnd, fun pr hpr => ?_⟩
    have hmem : reg pr ∈ (pass1 st').map reg := List.mem_map_of_mem hpr
    rw [hregs1] at hmem
    obtain ⟨pr', hpr', heq⟩ := List.mem_map.mp hmem
    show st.regUsage (reg pr) = true
    rw [← heq]
    exact hall pr' hpr'

end Cases

/-- One iteration. -/
theorem splitInv_step (h : SplitInv maxPasses partInfo txn₀ layout i st)
    (hmode : (st.txn.coldOps i).mode ≠ .invalid) :
    SplitInv maxPasses partInfo txn₀ layout (i + 1) (extractStep maxPasses partInfo st i) := by
  have hat := h.at'.step maxPasses partInfo
  rw [h.at'.ahead i (Nat.le_refl i)] at hmode
  have hmodes : ∀ j < i + 1, (txn₀.coldOps j).mode ≠ .invalid := by
    intro j hj
    rcases Nat.lt_succ_iff_lt_or_eq.mp hj with hj | rfl
    · exact h.modes j hj
    · exact hmode
  cases extractStep_classified maxPasses partInfo h.at' with
  | first hhot hfree heq =>
    rw [heq] at hat ⊢
    exact splitInv_addPass1 h hmodes hhot hfree hat
  | second hhot hused hpasses hfree hroom heq =>
    rw [heq] at hat ⊢
    exact splitInv_addPass2 h hmodes hhot hused hpasses hfree hroom hat
  | giveUp hhot hused heq =>
    rw [heq] at hat ⊢
    exact splitInv_giveUp h hmodes hhot hat
  | cold hcold heq =>
    have hcolds : colds (extractStep maxPasses partInfo st i) =
        coldPart layout (seen partInfo txn₀ (i + 1)) := by
      rw [heq, colds_addCold, colds_look h.at', h.cold, seen_succ, coldPart_append, hcold]
      rfl
    have hhots : hotPart layout (seen partInfo txn₀ (i + 1)) =
        hotPart layout (seen partInfo txn₀ i) := by
      rw [seen_succ, hotPart_append, hcold]
      exact List.append_nil _
    obtain ⟨c₁, c₂, v₁, v₂, hadd⟩ := addCold_eq (look partInfo txn₀ st i) (located partInfo txn₀ i)
      (layout.location (located partInfo txn₀ i).id)
    rw [heq, hadd] at hat hcolds ⊢
    exact { h with at' := hat, modes := hmodes, cold := hcolds, hot := hhots ▸ h.hot }

/-! ### The loop -/

/-- The number of operations in the lists. -/
theorem SplitInv.sum (h : SplitInv maxPasses partInfo txn₀ layout i st) :
    st.coldP + st.hotP1 + st.hotP2 = i := by
  have hcold : st.coldP = (coldPart layout (seen partInfo txn₀ i)).length := by
    rw [← h.cold]
    simp [colds]
  have hhot : st.hotP1 + st.hotP2 = (hotPart layout (seen partInfo txn₀ i)).length := by
    rw [← h.hot.length_eq]
    simp [pass1, pass2]
  have hall := (perm_hotPart_coldPart layout (seen partInfo txn₀ i)).length_eq
  rw [List.length_append, List.length_map, ← hcold, ← hhot] at hall
  simp only [seen, List.length_map, List.length_range] at hall
  omega

theorem SplitInv.stepInRange (h : SplitInv maxPasses partInfo txn₀ layout i st)
    (hl : layout.Reachable) (hi : i < nOps) : StepInRange maxPasses st i := by
  have hsum := h.sum
  apply stepInRange_of h.at' hl
  · omega
  · rw [h.count2]
    exact id
  · omega
  · intro r hr
    have := (h.buf r hr).1
    omega

/-- The subscripts of the loop, started behind `i` operations. -/
theorem SplitInv.loopInRange (hl : layout.Reachable) {n : ℕ} (hn : i + n = nOps)
    (h : SplitInv maxPasses partInfo txn₀ layout i st) : LoopInRange maxPasses partInfo n i st := by
  induction n generalizing i st with
  | zero => trivial
  | succ n ih =>
    have hi : i < nOps := by omega
    exact ⟨hi, fun hmode => ⟨h.stepInRange hl hi, ih (by omega) (splitInv_step h hmode)⟩⟩

/-- What the iterations preserve besides holds at the end, behind the last operation that was
seen. -/
theorem splitInv_loop (maxPasses : ℕ) (partInfo : PartitionInfo) (txn₀ : Txn)
    (layout : DeclusteredLayout) {P : ℕ → State → Prop}
    (hstep : ∀ i st, SplitInv maxPasses partInfo txn₀ layout i st → P i st →
      P (i + 1) (extractStep maxPasses partInfo st i)) (hinit : P 0 (State.init txn₀ layout)) :
    ∃ m ≤ nOps, SplitInv maxPasses partInfo txn₀ layout m
        (extractLoop maxPasses partInfo nOps 0 (State.init txn₀ layout)) ∧
      P m (extractLoop maxPasses partInfo nOps 0 (State.init txn₀ layout)) ∧
      (m < nOps → (txn₀.coldOps m).mode = .invalid) := by
  obtain ⟨m, hm, ⟨hinv, hP⟩, hstop⟩ := extractLoop_induct maxPasses partInfo (n := nOps)
    (P := fun i st => SplitInv maxPasses partInfo txn₀ layout i st ∧ P i st)
    (fun i st _ hmode h => ⟨splitInv_step h.1 hmode, hstep i st h.1 h.2⟩)
    ⟨splitInv_init maxPasses partInfo txn₀ layout, hinit⟩
  rw [Nat.zero_add] at hm hstop
  rw [hinv.at'.ahead m (Nat.le_refl m)] at hstop
  exact ⟨m, hm, hinv, hP, hstop⟩

/-- An accelerated transaction: the assertion on the counters says that all operations were seen. -/
theorem exists_of_accel {P : ℕ → State → Prop}
    (hstep : ∀ i st, SplitInv maxPasses partInfo txn₀ layout i st → P i st →
      P (i + 1) (extractStep maxPasses partInfo st i)) (hinit : P 0 (State.init txn₀ layout))
    {txn : Txn} {layout' : DeclusteredLayout}
    (h : extractHotCold maxPasses partInfo txn₀ layout = some (txn, layout'))
    (hdo : txn.doAccel = true) :
    ∃ st, txn = finishAccel maxPasses st ∧ st.txn.doAccel = true ∧
      SplitInv maxPasses partInfo txn₀ layout nOps st ∧ P nOps st := by
  obtain ⟨m, -, hinv, hP, -⟩ := splitInv_loop maxPasses partInfo txn₀ layout hstep hinit
  unfold extractHotCold at h
  set st := extractLoop maxPasses partInfo nOps 0 (State.init txn₀ layout)
  simp only at h
  split_ifs at h with haccel hall
  · obtain ⟨rfl, -⟩ := Prod.mk.inj (Option.some.inj h)
    obtain rfl : m = nOps := hinv.sum.symm.trans hall
    exact ⟨st, rfl, haccel, hinv, hP⟩
  · obtain ⟨rfl, -⟩ := Prod.mk.inj (Option.some.inj h)
    exact absurd hdo haccel

/-! ### The lists at the end -/

/-- `n` entries copied behind `base` others. -/
theorem map_range_copyBack (dst : ℕ → Op) (base n : ℕ) (src : ℕ → HotOp) :
    (List.range (base + n)).map (copyBack dst base n src) =
      (List.range base).map dst ++ (List.range n).map fun i => (src i).1 := by
  induction n with
  | zero => simp [copyBack]
  | succ n ih =>
    have hsucc : copyBack dst base (n + 1) src =
        Function.update (copyBack dst base n src) (base + n) (src n).1 := by
      unfold copyBack
      rw [List.range_succ, List.foldl_append, Nat.add_comm base n]
      rfl
    rw [hsucc, ← Nat.add_assoc, map_range_update, ih, List.range_succ, List.map_append,
      List.append_assoc]
    rfl

end HotCold

namespace Op

/-- What an operation asks for, without the node that owns the key. -/
def content (op : Op) : DbKey × AccessMode × BitVec 32 := (op.id, op.mode, op.value)

end Op

namespace Txn

/-- All entries of `cold_ops`. -/
def ops (txn : Txn) : List Op := (List.range nOps).map txn.coldOps

end Txn

namespace HotCold

open State

variable {maxPasses : ℕ} {partInfo : PartitionInfo} {txn₀ : Txn} {layout : DeclusteredLayout}
  {st : State}

theorem map_content_seen (partInfo : PartitionInfo) (txn₀ : Txn) :
    (seen partInfo txn₀ nOps).map Op.content = txn₀.ops.map Op.content := by
  unfold seen Txn.ops
  rw [List.map_map, List.map_map]
  rfl

theorem mode_of_mem_seen (hvalid : ∀ j < nOps, (txn₀.coldOps j).mode ≠ .invalid) {op : Op}
    (hop : op ∈ seen partInfo txn₀ nOps) : op.mode ≠ .invalid := by
  obtain ⟨j, hj, rfl⟩ := List.mem_map.mp hop
  exact hvalid j (List.mem_range.mp hj)

section End

variable (h : SplitInv maxPasses partInfo txn₀ layout nOps st)
include h

theorem SplitInv.mode_pass {pr : HotOp} (hpr : pr ∈ pass1 st ++ pass2 st) : pr.1.mode ≠ .invalid :=
  mode_of_mem_hotPart h.modes (h.hot.mem_iff.mp hpr)

theorem SplitInv.cold_finishAccel : (finishAccel maxPasses st).cold = colds st := by
  have hsum := h.sum
  refine terminated_update (by omega) (fun op hop => ?_) (by simp)
  have hmem : op ∈ coldPart layout (seen partInfo txn₀ nOps) := h.cold ▸ hop
  simpa using mode_of_mem_seen h.modes (List.mem_filter.mp hmem).1

theorem SplitInv.hot_finishAccel : (finishAccel maxPasses st).hot = pass1 st := by
  have hsum := h.sum
  refine terminated_update (by omega) (fun pr hpr => ?_) (by simp)
  simpa using h.mode_pass (List.mem_append_left _ hpr)

/-- With one pass nothing marks the end of the second list, but it is empty from the start. -/
theorem SplitInv.hot2_finishAccel (hempty : (txn₀.hotOpsPass2 0).1.mode = .invalid) :
    (finishAccel maxPasses st).hot2 = pass2 st := by
  by_cases hpasses : maxPasses = 2
  · have hterm : (finishAccel maxPasses st).hotOpsPass2 =
        if st.hotP2 < maxOpsPass2Accel then terminateHot st.txn.hotOpsPass2 st.hotP2
        else st.txn.hotOpsPass2 := by
      simp [finishAccel, hpasses]
    unfold Txn.hot2
    rw [hterm]
    refine terminated_update h.le2 (fun pr hpr => ?_) (by simp)
    simpa using h.mode_pass (List.mem_append_right _ hpr)
  · obtain ⟨hzero, hsame⟩ := h.one hpasses
    have hkeep : (finishAccel maxPasses st).hotOpsPass2 = txn₀.hotOpsPass2 := by
      simp [finishAccel, hpasses, hsame]
    unfold Txn.hot2 pass2
    rw [hkeep, hzero, terminated_eq (Nat.zero_le _) (by simp) fun _ => by simpa using hempty]
    rfl

theorem SplitInv.ops_finishCold : (finishCold st).ops =
    colds st ++ (pass1 st).map Prod.fst ++ (pass2 st).map Prod.fst := by
  have hsum := h.sum
  unfold Txn.ops finishCold
  dsimp only
  rw [← hsum, map_range_copyBack, map_range_copyBack]
  simp [colds, pass1, pass2, Function.comp_def]

end End

/-- The operations in the three lists. -/
theorem SplitInv.perm (h : SplitInv maxPasses partInfo txn₀ layout nOps st) :
    ((colds st ++ (pass1 st).map Prod.fst ++ (pass2 st).map Prod.fst).map Op.content).Perm
      (txn₀.ops.map Op.content) := by
  rw [← map_content_seen partInfo]
  apply List.Perm.map
  rw [List.append_assoc, ← List.map_append, h.cold]
  exact ((h.hot.map _).append_left _).trans (perm_hotPart_coldPart layout _)

theorem SplitInv.content_colds (h : SplitInv maxPasses partInfo txn₀ layout nOps st) :
    (colds st).map Op.content =
      (txn₀.ops.filter fun op => !layout.isHot op.id).map Op.content := by
  rw [h.cold]
  unfold coldPart seen Txn.ops
  rw [List.filter_map, List.filter_map, List.map_map, List.map_map]
  rfl

/-! ### The layout -/

/-- An iteration with another layout that gives the same answer. -/
theorem extractStep_withLayout (maxPasses : ℕ) (partInfo : PartitionInfo) (st : State) (i : ℕ)
    {l : DeclusteredLayout}
    (h : (l.getLocation (st.txn.coldOps i).id).1 =
      (st.layout.getLocation (st.txn.coldOps i).id).1) :
    extractStep maxPasses partInfo { st with layout := l } i =
      { extractStep maxPasses partInfo st i with
        layout := (l.getLocation (st.txn.coldOps i).id).2 } := by
  unfold extractStep
  simp only [h]
  split_ifs
  · rfl
  · rfl
  · rfl
  · unfold State.addCold
    dsimp only
    split_ifs <;> rfl

theorem extractLoop_withLayout (maxPasses : ℕ) (partInfo : PartitionInfo) {l : DeclusteredLayout}
    {n i : ℕ} (hn : i + n = nOps) (hat : At txn₀ layout i st)
    (h : ∀ j < nOps, (l.getLocation (txn₀.coldOps j).id).1 =
      (layout.getLocation (txn₀.coldOps j).id).1) :
    ∃ l', extractLoop maxPasses partInfo n i { st with layout := l } =
      { extractLoop maxPasses partInfo n i st with layout := l' } := by
  induction n generalizing i st l with
  | zero => exact ⟨l, rfl⟩
  | succ n ih =>
    have hop := hat.ahead i (Nat.le_refl i)
    have hans : (l.getLocation (st.txn.coldOps i).id).1 =
        (st.layout.getLocation (st.txn.coldOps i).id).1 := by
      rw [hop, h i (by omega), hat.answers]
    unfold extractLoop
    rw [extractStep_withLayout maxPasses partInfo st i hans]
    dsimp only
    split_ifs
    · exact ⟨l, rfl⟩
    · refine ih (by omega) (hat.step maxPasses partInfo) fun j hj => ?_
      rw [DeclusteredLayout.getLocation_getLocation]
      exact h j hj

/-- Only the answers of the layout matter. -/
theorem extractHotCold_congr {l : DeclusteredLayout}
    (h : ∀ j < nOps, (l.getLocation (txn₀.coldOps j).id).1 =
      (layout.getLocation (txn₀.coldOps j).id).1) :
    (extractHotCold maxPasses partInfo txn₀ l).map Prod.fst =
      (extractHotCold maxPasses partInfo txn₀ layout).map Prod.fst := by
  obtain ⟨l', hl'⟩ := extractLoop_withLayout maxPasses partInfo (n := nOps) (Nat.zero_add _)
    (splitInv_init maxPasses partInfo txn₀ layout).at' h
  unfold extractHotCold
  have hinit : State.init txn₀ l = { State.init txn₀ layout with layout := l } := rfl
  rw [hinit, hl']
  dsimp only
  split_ifs <;> rfl

/-- **Splitting conserves the operations.**  A loaded transaction with `N_OPS` valid operations is
split without leaving an array.  If it is accelerated, its three lists are a permutation of the
operations, the cold operations are those on keys that are not hot, in their order, and no pass uses
a register array twice. Otherwise `cold_ops` is a permutation of the operations, and the other lists
are empty. -/
theorem extractHotCold_conserves (maxPasses : ℕ) (partInfo : PartitionInfo) (mem : Txn)
    (hvalid : ∀ j < nOps, (mem.coldOps j).mode ≠ .invalid) (hl : layout.Reachable) :
    ExtractInRange maxPasses partInfo (Txn.new mem) layout ∧
    ∃ txn layout', extractHotCold maxPasses partInfo (Txn.new mem) layout = some (txn, layout') ∧
      (txn.doAccel = true →
        ((txn.cold ++ txn.hot.map Prod.fst ++ txn.hot2.map Prod.fst).map Op.content).Perm
          (mem.ops.map Op.content) ∧
        txn.cold.map Op.content = (mem.ops.filter fun op => !layout.isHot op.id).map Op.content ∧
        (txn.hot.map reg).Nodup ∧ (txn.hot2.map reg).Nodup) ∧
      (txn.doAccel = false →
        (txn.ops.map Op.content).Perm (mem.ops.map Op.content) ∧ txn.hot = [] ∧ txn.hot2 = []) := by
  obtain ⟨m, hm, h, -, hstop⟩ := splitInv_loop maxPasses partInfo (Txn.new mem) layout
    (P := fun _ _ => True) (fun _ _ _ _ => trivial) trivial
  obtain rfl : m = nOps :=
    Nat.le_antisymm hm (Nat.le_of_not_lt fun hlt => hvalid m hlt (hstop hlt))
  have hrange := (splitInv_init maxPasses partInfo (Txn.new mem) layout).loopInRange hl
    (Nat.zero_add _)
  unfold ExtractInRange extractHotCold
  set st := extractLoop maxPasses partInfo nOps 0 (State.init (Txn.new mem) layout)
  have hsum := h.sum
  have hle2 := h.le2
  refine ⟨⟨hrange, fun _ => ⟨fun i hi => ⟨by omega, by omega⟩, fun i hi => ⟨by omega, by omega⟩⟩⟩,
    ?_⟩
  dsimp only
  split_ifs with haccel
  · refine ⟨_, _, rfl, fun _ => ?_, fun hnot => Bool.noConfusion (haccel.symm.trans hnot)⟩
    rw [h.cold_finishAccel, h.hot_finishAccel, h.hot2_finishAccel rfl]
    exact ⟨h.perm, h.content_colds, (h.accel haccel).1, h.distinct2⟩
  · refine ⟨_, _, rfl, fun hdo => absurd hdo haccel, fun _ => ?_⟩
    rw [h.ops_finishCold]
    exact ⟨h.perm, rfl, rfl⟩

/-- A layout with a block and two keys that are not hot, 0 and 2305. -/
def sample : DeclusteredLayout :=
  (DeclusteredLayout.ofSorted (DeclusteredLayout.twoTier 2305)
    (DeclusteredLayout.twoTier 2305)).withBlock 0

theorem reachable_sample : sample.Reachable :=
  .withBlock 0 (.ofSorted (List.Perm.refl _))

/-- What this layout answers. -/
def sampleAnswers : DeclusteredLayout where
  blockNum := 0
  virtMap k := some (if k = 2305 then DeclusteredLayout.dealtLoc 1 2305
    else DeclusteredLayout.dealtLoc 2 (2304 - k))
  revByReg _ _ := none
  idFreq := []

theorem entry_sample {k : DbKey} (hk : k ≤ 2305) : sample.entry k = sampleAnswers.entry k :=
  DeclusteredLayout.entry_twoTier (by decide) hk 0

theorem getLocation_sample {k : DbKey} (hk : k ≤ 2305) :
    (sample.getLocation k).1 = (sampleAnswers.getLocation k).1 := by
  have hentry := entry_sample hk
  unfold DeclusteredLayout.entry at hentry
  unfold DeclusteredLayout.getLocation
  simp only [hentry]
  rfl

/-- Operations on the keys `ks`. -/
def memOf (ks : List DbKey) : Txn :=
  { (default : Txn) with coldOps := fun j => ⟨ks.getD j 0, ⟨true, 0⟩, .write, BitVec.ofNat 32 j⟩ }

/-- All keys are on one node. -/
def oneNode : PartitionInfo := ⟨2306, 1, 0⟩

/-- A run on `sample` is evaluated with its answers. -/
theorem exists_extract_sample {α : Type*} (maxPasses : ℕ) (ks : List DbKey) (f : Txn → α) {v : α}
    (hks : ∀ j < nOps, ks.getD j 0 ≤ 2305)
    (h : (extractHotCold maxPasses oneNode (Txn.new (memOf ks)) sampleAnswers).map
      (fun r => f r.1) = some v) :
    ∃ txn layout', extractHotCold maxPasses oneNode (Txn.new (memOf ks)) sample =
      some (txn, layout') ∧
      f txn = v := by
  have hsame : (extractHotCold maxPasses oneNode (Txn.new (memOf ks)) sample).map Prod.fst =
      (extractHotCold maxPasses oneNode (Txn.new (memOf ks)) sampleAnswers).map Prod.fst :=
    extractHotCold_congr fun j hj => getLocation_sample (hks j hj)
  have hf := congrArg (Option.map f) hsame
  rw [Option.map_map, Option.map_map, show f ∘ Prod.fst = fun r : Txn × DeclusteredLayout =>
    f r.1 from rfl, h] at hf
  obtain ⟨⟨txn, layout'⟩, heq, hv⟩ := Option.map_eq_some_iff.mp hf
  exact ⟨txn, layout', heq, hv⟩

/-- The cold keys first; keys 2232 and 2304 share register array 0. -/
def twoHot : List DbKey := [2305, 0, 2232, 2303, 2302, 2304, 2301, 2300]

theorem extractHotCold_conserves_twoHot : ∃ txn layout',
    extractHotCold 2 oneNode (Txn.new (memOf twoHot)) sample = some (txn, layout') ∧
      txn.doAccel = true ∧
      ((txn.cold ++ txn.hot.map Prod.fst ++ txn.hot2.map Prod.fst).map Op.content).Perm
        ((memOf twoHot).ops.map Op.content) := by
  obtain ⟨txn, layout', heq, hdo⟩ :=
    exists_extract_sample 2 twoHot Txn.doAccel (v := true) (by decide) (by decide +kernel)
  obtain ⟨-, txn', layout'', heq', haccel, -⟩ :=
    extractHotCold_conserves 2 oneNode (memOf twoHot) (by decide) reachable_sample
  obtain ⟨rfl, -⟩ := Prod.mk.inj (Option.some.inj (heq.symm.trans heq'))
  exact ⟨txn, layout', heq, hdo, (haccel hdo).1⟩

end HotCold

end P4db
