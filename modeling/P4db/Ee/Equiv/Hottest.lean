import Mathlib.Data.List.GetD
import P4db.Algorithm.TopTwo
import P4db.Ee.Equiv.Split

/-!
# The hottest cold operations

`extract_hot_cold` tracks the two hottest operations of the cold list while it compacts it.

* `HottestInv`: what the loop has tracked is the scan `topTwo` of the frequencies in the compacted
  list.
* `getElem_coldAt`: the compacted list has the loaded cold operations in their order.
* `hottest_iff`: `hottest_cold_i1` is always right.  `hottest_cold_i2` is right exactly when every
  loaded cold operation before the first hottest one is matched in frequency by another one, because
  the hottest operation so far is forgotten when a hotter one is found.
-/

namespace P4db.HotCold

open State

variable {maxPasses : ℕ} {partInfo : PartitionInfo} {txn₀ : Txn} {layout : DeclusteredLayout}
  {st : State} {i : ℕ}

/-- The frequency of the `j`-th operation of an array. -/
def freqAt (layout : DeclusteredLayout) (ops : ℕ → Op) (j : ℕ) : ℕ :=
  (layout.location (ops j).id).distFreq

theorem freqAt_eq (layout : DeclusteredLayout) (ops : ℕ → Op) (j : ℕ) :
    freqAt layout ops j = (layout.entry (ops j).id).distFreq := rfl

/-- The end of the list is marked in the mode of an operation, so the frequencies stay. -/
theorem freqAt_finishAccel (maxPasses : ℕ) (st : State) :
    freqAt layout (finishAccel maxPasses st).coldOps = freqAt layout st.txn.coldOps := by
  funext j
  unfold freqAt finishAccel terminate
  dsimp only
  split_ifs
  · by_cases hj : j = st.coldP
    · rw [hj, Function.update_self]
    · rw [Function.update_of_ne hj]
  · rfl

/-- The local variables of the loop as a scan. -/
def tracked (st : State) : TopTwo := ⟨st.cold1I, st.cold1V, st.cold2I, st.cold2V⟩

/-- After any number of operations. -/
structure HottestInv (layout : DeclusteredLayout) (st : State) : Prop where
  scan : tracked st = topTwo (freqAt layout st.txn.coldOps) st.coldP
  unset₁ : st.txn.hottestColdI1 = none
  unset₂ : st.txn.hottestColdI2 = none

theorem hottestInv_init (mem : Txn) (layout : DeclusteredLayout) :
    HottestInv layout (State.init (Txn.new mem) layout) :=
  ⟨rfl, rfl, rfl⟩

theorem tracked_addCold (st : State) (op : Op) (loc : TupleLocation) :
    tracked (st.addCold op loc) = (tracked st).push st.coldP loc.distFreq := by
  unfold State.addCold TopTwo.push tracked
  dsimp only
  split_ifs <;> rfl

theorem hottestInv_addCold (h : HottestInv layout st) (op : Op) :
    HottestInv layout (st.addCold op (layout.location op.id)) := by
  have hscan := tracked_addCold st op (layout.location op.id)
  obtain ⟨c₁, c₂, v₁, v₂, heq⟩ := addCold_eq st op (layout.location op.id)
  rw [h.scan, heq] at hscan
  rw [heq]
  refine ⟨hscan.trans ?_, h.unset₁, h.unset₂⟩
  show _ = (topTwo (freqAt layout (Function.update st.txn.coldOps st.coldP op)) st.coldP).push
    st.coldP (freqAt layout (Function.update st.txn.coldOps st.coldP op) st.coldP)
  have hold : ∀ j < st.coldP,
      freqAt layout st.txn.coldOps j = freqAt layout
        (Function.update st.txn.coldOps st.coldP op) j := by
    intro j hj
    unfold freqAt
    rw [Function.update_of_ne (Nat.ne_of_lt hj)]
  rw [← topTwo_congr hold]
  unfold freqAt
  rw [Function.update_self]

/-- Where the operation is read from is behind the cold operations. -/
theorem hottestInv_look (hat : At txn₀ layout i st) (h : HottestInv layout st) :
    HottestInv layout (look partInfo txn₀ st i) := by
  refine ⟨h.scan.trans ?_, h.unset₁, h.unset₂⟩
  apply topTwo_congr
  intro j hj
  have hne : j ≠ i := Nat.ne_of_lt (Nat.lt_of_lt_of_le hj hat.coldP_le)
  show _ = (layout.location (Function.update st.txn.coldOps i _ j).id).distFreq
  rw [Function.update_of_ne hne]
  rfl

/-- One iteration. -/
theorem hottestInv_step (hat : At txn₀ layout i st) (h : HottestInv layout st) :
    HottestInv layout (extractStep maxPasses partInfo st i) := by
  have hlook : HottestInv layout (look partInfo txn₀ st i) := hottestInv_look hat h
  cases extractStep_classified maxPasses partInfo hat with
  | first _ _ heq | second _ _ _ _ _ heq | giveUp _ _ heq =>
    rw [heq]
    exact ⟨hlook.scan, hlook.unset₁, hlook.unset₂⟩
  | cold _ heq =>
    rw [heq]
    exact hottestInv_addCold hlook _

/-! ### The result -/

section Accelerated

/-- The loaded operation `j` is not on a hot key. -/
def LoadedCold (layout : DeclusteredLayout) (mem : Txn) (j : ℕ) : Prop :=
  j < nOps ∧ layout.isHot (mem.coldOps j).id = false

/-- The loaded operations on keys that are not hot. -/
def coldAt (layout : DeclusteredLayout) (mem : Txn) : List ℕ :=
  (List.range nOps).filter fun j => !layout.isHot (mem.coldOps j).id

theorem mem_coldAt {mem : Txn} {j : ℕ} : j ∈ coldAt layout mem ↔ LoadedCold layout mem j := by
  rw [coldAt, List.mem_filter, List.mem_range, Bool.not_eq_true']
  rfl

variable {mem txn : Txn} {layout' : DeclusteredLayout}
  (h : extractHotCold maxPasses partInfo (Txn.new mem) layout = some (txn, layout'))
  (hdo : txn.doAccel = true)
include h hdo

/-- The cold list is compacted in order. -/
theorem getElem_coldAt : txn.cold.length = (coldAt layout mem).length ∧
    ∀ p (hp : p < (coldAt layout mem).length),
      freqAt layout txn.coldOps p = freqAt layout mem.coldOps ((coldAt layout mem)[p]) := by
  obtain ⟨st, rfl, -, hinv, -⟩ := exists_of_accel (P := fun _ _ => True)
    (fun _ _ _ _ => trivial) trivial h hdo
  have hcold : colds st = (coldAt layout mem).map (located partInfo (Txn.new mem)) := by
    rw [hinv.cold]
    unfold coldPart seen coldAt
    rw [List.filter_map]
    rfl
  have hlen : st.coldP = (coldAt layout mem).length := by
    have := congrArg List.length hcold
    simpa [colds] using this
  refine ⟨?_, fun p hp => ?_⟩
  · rw [hinv.cold_finishAccel, hcold, List.length_map]
  · have hp' : p < st.coldP := hlen ▸ hp
    have hop : st.txn.coldOps p = located partInfo (Txn.new mem) ((coldAt layout mem)[p]) := by
      have := congrArg (fun l => l[p]?) hcold
      simpa [colds, hp, hp'] using this
    rw [freqAt_finishAccel]
    unfold freqAt
    rw [hop]
    rfl

/-- Matched in the compacted list is matched among the loaded operations. -/
theorem matched_iff_loaded :
    Matched (· < txn.cold.length) (freqAt layout txn.coldOps) ↔
      Matched (LoadedCold layout mem) (freqAt layout mem.coldOps) := by
  obtain ⟨hlen, hfreq⟩ := getElem_coldAt h hdo
  rw [hlen]
  have hsorted : (coldAt layout mem).Pairwise (· < ·) := List.pairwise_lt_range.filter _
  refine matched_congr (e := fun p => (coldAt layout mem).getD p 0) ?_ ?_ ?_ ?_
  · intro p hp q hq hpq
    show (coldAt layout mem).getD p 0 < (coldAt layout mem).getD q 0
    rw [List.getD_eq_getElem _ _ hp, List.getD_eq_getElem _ _ hq]
    exact List.pairwise_iff_getElem.mp hsorted p q hp hq hpq
  · intro p hp
    rw [List.getD_eq_getElem _ _ hp]
    exact mem_coldAt.mp (List.getElem_mem hp)
  · intro j hj
    obtain ⟨p, hp, rfl⟩ := List.getElem_of_mem (mem_coldAt.mpr hj)
    exact ⟨p, hp, List.getD_eq_getElem _ _ hp⟩
  · intro p hp
    rw [List.getD_eq_getElem _ _ hp]
    exact hfreq p hp

/-- What the transaction gets from the scan. -/
theorem exists_scan_of_accel : ∃ t : TopTwo, t.Spec (freqAt layout txn.coldOps) txn.cold.length ∧
    txn.hottestColdI1 = t.first ∧ txn.hottestColdI2 = t.second := by
  obtain ⟨st, rfl, -, hinv, hhot⟩ := exists_of_accel (P := fun _ st => HottestInv layout st)
    (fun _ _ hinv hhot => hottestInv_step hinv.at' hhot) (hottestInv_init mem layout) h hdo
  have hlen : (finishAccel maxPasses st).cold.length = st.coldP := by
    rw [hinv.cold_finishAccel]
    simp [colds]
  refine ⟨tracked st, ?_, ?_, ?_⟩
  · rw [hlen, freqAt_finishAccel, hhot.scan]
    exact TopTwo.spec_topTwo _ _
  · show (if st.cold1V > 0 then some st.cold1I else st.txn.hottestColdI1) = _
    rw [hhot.unset₁]
    rfl
  · show (if st.cold2V > 0 then some st.cold2I else st.txn.hottestColdI2) = _
    rw [hhot.unset₂]
    rfl

/-- **The hottest cold operations.**  For every accelerated transaction `hottest_cold_i1` is set if
a cold operation has a positive frequency, and is one of maximal frequency.  `hottest_cold_i2` is
set if two of them have, and is one of maximal frequency among the others, exactly when every loaded
operation on a key that is not hot, of positive frequency and before the first hottest one of them,
is matched by another one. -/
theorem hottest_iff :
    IsTop (freqAt layout txn.coldOps) txn.cold.length txn.hottestColdI1 ∧
    (IsSecond (freqAt layout txn.coldOps) txn.cold.length txn.hottestColdI1 txn.hottestColdI2 ↔
      Matched (LoadedCold layout mem) (freqAt layout mem.coldOps)) := by
  obtain ⟨t, hspec, h₁, h₂⟩ := exists_scan_of_accel h hdo
  rw [h₁, h₂, ← matched_iff_loaded h hdo]
  exact ⟨hspec.isTop, hspec.isSecond_iff⟩

end Accelerated

/-- The hottest cold operation comes first. -/
theorem hottest_sample : ∃ txn layout',
    extractHotCold 2 oneNode
      (Txn.new (memOf [0, 2305, 2232, 2303, 2302, 2304, 2301, 2300])) sample =
      some (txn, layout') ∧ txn.hottestColdI1 = some 0 ∧ txn.hottestColdI2 = some 1 ∧
      IsSecond (freqAt sample txn.coldOps) txn.cold.length txn.hottestColdI1 txn.hottestColdI2 := by
  set ks := [0, 2305, 2232, 2303, 2302, 2304, 2301, 2300]
  have hks : ∀ j < nOps, ks.getD j 0 ≤ 2305 := by decide
  obtain ⟨txn, layout', heq, hval⟩ := exists_extract_sample 2 ks
    (fun txn => (txn.doAccel, txn.hottestColdI1, txn.hottestColdI2)) (v := (true, some 0, some 1))
    hks (by decide +kernel)
  simp only [Prod.mk.injEq] at hval
  obtain ⟨hdo, h₁, h₂⟩ := hval
  refine ⟨txn, layout', heq, h₁, h₂, (hottest_iff heq hdo).2.mpr ?_⟩
  intro m hm j hj hcold
  -- the loaded cold operations are the first two, and the first one is the hotter one
  have hfreq : ∀ j < nOps, freqAt sample (memOf ks).coldOps j =
      freqAt sampleAnswers (memOf ks).coldOps j := by
    intro j hj
    rw [freqAt_eq, freqAt_eq]
    exact congrArg _ (entry_sample (hks j hj))
  have hlt : m < 2 := by
    have hcolds : ∀ j < nOps, sampleAnswers.isHot ((memOf ks).coldOps j).id = false → j < 2 := by
      decide
    refine hcolds m hm.mem.1 ?_
    rw [← hm.mem.2]
    exact congrArg Prod.fst (getLocation_sample (hks m hm.mem.1)).symm
  have hlt₀ := hm.lt j hj hcold
  rw [hfreq j hcold.1, hfreq m hm.mem.1] at hlt₀
  obtain ⟨rfl, rfl⟩ : m = 1 ∧ j = 0 := by omega
  exact absurd hlt₀ (by decide)

/-- The colder one of the two cold operations comes first and is forgotten. -/
theorem not_isSecond_twoHot : ∃ txn layout',
    extractHotCold 2 oneNode (Txn.new (memOf twoHot)) sample = some (txn, layout') ∧
      txn.doAccel = true ∧
      freqAt sample txn.coldOps 0 = 1 ∧ freqAt sample txn.coldOps 1 = 2 ∧ txn.cold.length = 2 ∧
      txn.hottestColdI1 = some 1 ∧ txn.hottestColdI2 = none ∧
      ¬IsSecond (freqAt sample txn.coldOps) txn.cold.length txn.hottestColdI1
        txn.hottestColdI2 := by
  obtain ⟨txn, layout', heq, hval⟩ := exists_extract_sample 2 twoHot
    (fun txn => ((txn.doAccel, txn.cold.length), ((txn.coldOps 0).id, (txn.coldOps 1).id),
      txn.hottestColdI1, txn.hottestColdI2)) (v := ((true, 2), (2305, 0), some 1, none)) (by decide)
    (by decide +kernel)
  simp only [Prod.mk.injEq] at hval
  obtain ⟨⟨hdo, hlen⟩, ⟨hid₀, hid₁⟩, h₁, h₂⟩ := hval
  have hfreq : ∀ {j k v}, (txn.coldOps j).id = k → k ≤ 2305 → (sampleAnswers.entry k).distFreq = v →
      freqAt sample txn.coldOps j = v := by
    intro j k v hid hk hv
    rw [freqAt_eq, hid, entry_sample hk, hv]
  have hf₀ : freqAt sample txn.coldOps 0 = 1 := hfreq hid₀ (by decide) (by decide)
  have hf₁ : freqAt sample txn.coldOps 1 = 2 := hfreq hid₁ (by decide) (by decide)
  refine ⟨txn, layout', heq, hdo, hf₀, hf₁, hlen, h₁, h₂, ?_⟩
  rw [h₂, hlen]
  exact not_isSecond_none _ (by decide) (by decide) Nat.zero_ne_one (hf₀ ▸ Nat.one_pos)
    (hf₁ ▸ Nat.two_pos)

end P4db.HotCold
