import P4db.Switch.Equiv.Handle

/-!
# The choice of a block

`handle_alloc` looks for a block with `upper_bound`, from a key that is made of the start time and
the block id 0, and steps back by one.  In the order of the set the key comes before all blocks that
are estimated to finish exactly at the start time, block 0 excepted: these are passed over.

* `found_of_findBlock`: the block that is found, by its place in the order.
* `newEstimate_eq`: the estimate that it gets.
* `bestFit_iff`: it is the best fit exactly when no block that finishes at the start time is passed
  over; and only its estimate is replaced.
* `not_bestFit_atStart`: a block that is passed over.
-/

namespace P4db

theorem BlkMeta.cmp_iff {x y : BlkMeta} : BlkMeta.cmp x y = true ↔
    x.estFinishTs < y.estFinishTs ∨ x.estFinishTs = y.estFinishTs ∧ x.blkId < y.blkId := by
  unfold cmp
  split_ifs with heq
  · simp [heq]
  · simp only [decide_eq_true_eq]
    omega

theorem BlkMeta.cmp_trans (x y z : BlkMeta) (hxy : BlkMeta.cmp x y = true)
    (hyz : BlkMeta.cmp y z = true) : BlkMeta.cmp x z = true := by
  rw [cmp_iff] at *
  omega

namespace Handle

/-- `blocks_sorted` is in the order of its comparator. -/
def SortedBlocks (blocks : List BlkMeta) : Prop := blocks.Pairwise fun x y => BlkMeta.cmp x y = true

/-- A block with the greatest estimate that is not after the start or, when all are after it, with
the least. -/
def BestFit (blocks : List BlkMeta) (myStartTs : ℕ) (found : BlkMeta) : Prop :=
  if ∃ m ∈ blocks, m.estFinishTs ≤ myStartTs then
    found.estFinishTs ≤ myStartTs ∧ ∀ m ∈ blocks, m.estFinishTs ≤ myStartTs →
      m.estFinishTs ≤ found.estFinishTs
  else ∀ m ∈ blocks, found.estFinishTs ≤ m.estFinishTs

/-- When some block is free before the start and some block exactly at the start, block 0 is one of
the latter. -/
def NonePassedOver (blocks : List BlkMeta) (myStartTs : ℕ) : Prop :=
  (∃ m ∈ blocks, m.estFinishTs < myStartTs) → (∃ m ∈ blocks, m.estFinishTs = myStartTs) →
    ∃ m ∈ blocks, m.estFinishTs = myStartTs ∧ m.blkId = 0

/-- A block that the key `(myStartTs, 0)` does not come before. -/
def BeforeKey (myStartTs : ℕ) (m : BlkMeta) : Prop :=
  m.estFinishTs < myStartTs ∨ m.estFinishTs = myStartTs ∧ m.blkId = 0

theorem cmp_key_iff {myStartTs : ℕ} {m : BlkMeta} :
    BlkMeta.cmp ⟨0, myStartTs⟩ m = true ↔ ¬BeforeKey myStartTs m := by
  rw [BlkMeta.cmp_iff]
  unfold BeforeKey
  dsimp only
  omega

/-- What `upper_bound` and the step back lead to: the last block before the key or, if there is
none, the first of all. -/
def Chosen (blocks : List BlkMeta) (myStartTs : ℕ) (found : BlkMeta) : Prop :=
  (BeforeKey myStartTs found ∧ ∀ m ∈ blocks, BeforeKey myStartTs m →
    m.estFinishTs ≤ found.estFinishTs) ∨
    ∀ m ∈ blocks, myStartTs ≤ m.estFinishTs ∧ found.estFinishTs ≤ m.estFinishTs

variable {h : Handle} {myStartTs : ℕ}

theorem found_of_findBlock (hsorted : SortedBlocks h.blocksSorted) (hne : h.blocksSorted ≠ [])
    (myStartTs : ℕ) :
    ∃ found, h.blocksSorted[h.findBlock myStartTs]? = some found ∧
      Chosen h.blocksSorted myStartTs found := by
  obtain ⟨pre, post, hsplit, hlen, hpre, hpost⟩ :=
    SortedSet.upperBound_split BlkMeta.cmp_trans hsorted ⟨0, myStartTs⟩
  unfold SortedBlocks at hsorted
  unfold findBlock
  dsimp only
  rw [hlen]
  rcases List.eq_nil_or_concat pre with rfl | ⟨init, found, rfl⟩
  · -- all blocks are behind the key
    rw [List.nil_append] at hsplit
    obtain ⟨found, rest, hcons⟩ := List.exists_cons_of_ne_nil hne
    refine ⟨found, by rw [hcons]; rfl, .inr fun m hm => ⟨?_, ?_⟩⟩
    · have hbehind := cmp_key_iff.mp (hpost m (hsplit ▸ hm))
      unfold BeforeKey at hbehind
      omega
    · rw [hcons] at hm hsorted
      rcases List.mem_cons.mp hm with rfl | hm
      · exact Nat.le_refl _
      · have hlt := BlkMeta.cmp_iff.mp ((List.pairwise_cons.mp hsorted).1 m hm)
        omega
  · -- the last block before the key
    have hidx : (if (init.concat found).length ≠ 0 then (init.concat found).length - 1
        else (init.concat found).length) = init.length := by
      simp
    rw [List.concat_eq_append] at hsplit hpre
    refine ⟨found, by rw [hidx, hsplit]; simp, .inl ⟨?_, ?_⟩⟩
    · by_contra hnot
      have htrue := cmp_key_iff.mpr hnot
      rw [hpre found (by simp)] at htrue
      exact absurd htrue Bool.false_ne_true
    · intro m hm hbefore
      rw [hsplit] at hm hsorted
      rcases List.mem_append.mp hm with hm | hm
      · rcases List.mem_append.mp hm with hm | hm
        · have hinit := (List.pairwise_append.mp (List.pairwise_append.mp hsorted).1).2.2
          have hlt := BlkMeta.cmp_iff.mp (hinit m hm found List.mem_cons_self)
          omega
        · rw [List.mem_singleton.mp hm]
      · exact absurd hbefore (cmp_key_iff.mp (hpost m hm))

theorem Chosen.isBestFit_iff {blocks : List BlkMeta} {found : BlkMeta}
    (h : Chosen blocks myStartTs found) (hmem : found ∈ blocks) :
    BestFit blocks myStartTs found ↔ NonePassedOver blocks myStartTs := by
  unfold BestFit NonePassedOver
  rcases h with ⟨hbefore, hlast⟩ | hfirst
  · unfold BeforeKey at hbefore hlast
    rw [if_pos ⟨found, hmem, by omega⟩]
    constructor
    · rintro ⟨-, hgreatest⟩ - ⟨m, hm, heq⟩
      have hle := hgreatest m hm (Nat.le_of_eq heq)
      exact ⟨found, hmem, by omega, by omega⟩
    · intro hpassed
      refine ⟨by omega, fun m hm hle => ?_⟩
      by_contra hgt
      -- `m` finishes at the start and was not found, so neither is block 0
      have heq : m.estFinishTs = myStartTs := by
        by_contra hne
        exact hgt (hlast m hm (.inl (by omega)))
      obtain ⟨m', hm', heq', hid⟩ := hpassed ⟨found, hmem, by omega⟩ ⟨m, hm, heq⟩
      have hle' := hlast m' hm' (.inr ⟨heq', hid⟩)
      omega
  · -- no block finishes before the start
    have hleast := hfirst found hmem
    refine iff_of_true ?_ ?_
    · split_ifs with hex
      · obtain ⟨m, hm, hle⟩ := hex
        have hfirstm := hfirst m hm
        exact ⟨by omega, fun m' _ hle' => by omega⟩
      · exact fun m hm => (hfirst m hm).2
    · rintro ⟨m, hm, hlt⟩
      have hfirstm := hfirst m hm
      omega

/-! ### The new estimate -/

/-- In the 64 bits of a time the new estimate is the later one of start and old estimate, plus the
duration. -/
theorem newEstimate_eq (found : BlkMeta) (start duration : ℕ) :
    newEstimate found (start % 2 ^ 64) ((start + duration) % 2 ^ 64) =
      { found with
        estFinishTs := (max (start % 2 ^ 64) found.estFinishTs + duration) % 2 ^ 64 } := by
  unfold newEstimate
  congr 1
  rw [Nat.max_def]
  split_ifs <;> omega

/-- The set with one estimate replaced. -/
theorem mem_insert_eraseIdx {blocks : List BlkMeta} (hall : AllBlocks blocks) {it : ℕ}
    {found new : BlkMeta} (hit : blocks[it]? = some found) (hnew : new.blkId = found.blkId)
    (m : BlkMeta) :
    m ∈ SortedSet.insert BlkMeta.cmp new (blocks.eraseIdx it) ↔
      m = new ∨ m ∈ blocks ∧ m.blkId ≠ found.blkId := by
  obtain ⟨hperm, hrest⟩ := hall.eraseIdx hit
  rw [(hall.perm_insert hit hnew).mem_iff, List.mem_cons]
  apply or_congr_right
  rw [← hperm.mem_iff, List.mem_cons]
  constructor
  · exact fun hm => ⟨.inr hm, hrest m hm⟩
  · rintro ⟨rfl | hm, hne⟩
    · exact absurd rfl hne
    · exact hm

/-- **The choice of a block.**  For every content of `blocks_sorted` with every block once, every
time, delay and duration: one block is taken and its estimate replaced, and no other.  The block is
the best fit exactly when no block is passed over that finishes at the start time. -/
theorem bestFit_iff (hall : AllBlocks h.blocksSorted) (hsorted : SortedBlocks h.blocksSorted)
    {t : ℕ} (ht : t ≠ noTenant ∧ t < nMaxTenants) (hwait : (h.tenantReq t).nWaiting = 0)
    (startDelay duration now : ℕ) :
    ∃ found ∈ h.blocksSorted, ∃ h', h.handleAlloc t startDelay duration now =
      some (found.blkId, h') ∧
      (BestFit h.blocksSorted ((now + startDelay) % 2 ^ 64) found ↔
        NonePassedOver h.blocksSorted ((now + startDelay) % 2 ^ 64)) ∧
      SortedBlocks h'.blocksSorted ∧
      ∀ m, m ∈ h'.blocksSorted ↔ m = { found with estFinishTs :=
          (max ((now + startDelay) % 2 ^ 64) found.estFinishTs + duration) % 2 ^ 64 } ∨
        m ∈ h.blocksSorted ∧ m.blkId ≠ found.blkId := by
  have hlen := hall.length
  have hne : h.blocksSorted ≠ [] := by
    intro hnil
    rw [hnil] at hlen
    exact absurd hlen (by decide)
  obtain ⟨found, hfound, hchosen⟩ := found_of_findBlock hsorted hne ((now + startDelay) % 2 ^ 64)
  have hmem := List.mem_of_getElem? hfound
  have hstart : ((h.start t).tenantReq t).nWaiting = 0 := by simpa [start] using hwait
  have hfound' : (h.start t).blocksSorted[(h.start t).findBlock ((now + startDelay) % 2 ^ 64)]? =
      some found := hfound
  refine ⟨found, hmem, { (h.start t).enqueue t found.blkId with
    blocksSorted := SortedSet.insert BlkMeta.cmp (newEstimate found ((now + startDelay) % 2 ^ 64)
      ((now + startDelay + duration) % 2 ^ 64))
      (h.blocksSorted.eraseIdx (h.findBlock ((now + startDelay) % 2 ^ 64))) },
    ?_, hchosen.isBestFit_iff hmem, ?_, ?_⟩
  · unfold handleAlloc
    rw [if_pos ⟨ht.1, ht.2, hlen⟩]
    dsimp only
    rw [hfound']
    dsimp only
    rw [if_pos hstart]
    rfl
  · exact SortedSet.pairwise_insert BlkMeta.cmp_trans
      (hsorted.sublist (List.eraseIdx_sublist _ _)) _
  · intro m
    have hid : (newEstimate found ((now + startDelay) % 2 ^ 64)
        ((now + startDelay + duration) % 2 ^ 64)).blkId = found.blkId := rfl
    rw [← newEstimate_eq]
    exact mem_insert_eraseIdx hall hfound hid m

/-- Block 1 is estimated to finish at time 10, all others are free. -/
def oneBusy : Handle :=
  { init with
    blocksSorted := (List.range nBlocks).foldl
      (fun blocks i => SortedSet.insert BlkMeta.cmp ⟨i, if i = 1 then 10 else 0⟩ blocks) [] }

theorem allBlocks_oneBusy : AllBlocks oneBusy.blocksSorted ∧ SortedBlocks oneBusy.blocksSorted := by
  unfold AllBlocks SortedBlocks
  decide +kernel

/-- From time 11 on block 1 is the best fit. -/
theorem bestFit_oneBusy :
    ∃ h', oneBusy.handleAlloc 1 1 5 10 = some (1, h') ∧ ⟨1, 16⟩ ∈ h'.blocksSorted := by
  obtain ⟨found, hmem, h', heq, hiff, -, hset⟩ :=
    bestFit_iff allBlocks_oneBusy.1 allBlocks_oneBusy.2
    (show 1 ≠ noTenant ∧ 1 < nMaxTenants by decide) rfl 1 5 10
  have hnone : NonePassedOver oneBusy.blocksSorted 11 := by
    unfold NonePassedOver
    decide +kernel
  have hbest : BestFit oneBusy.blocksSorted 11 found := hiff.mpr hnone
  have hex : ∃ m ∈ oneBusy.blocksSorted, m.estFinishTs ≤ 11 := by decide +kernel
  unfold BestFit at hbest
  rw [if_pos hex] at hbest
  have hlate : ∀ m ∈ oneBusy.blocksSorted, 10 ≤ m.estFinishTs → m = ⟨1, 10⟩ := by decide +kernel
  have hfound : found = ⟨1, 10⟩ :=
    hlate found hmem (hbest.2 ⟨1, 10⟩ (by decide +kernel) (by decide))
  subst hfound
  exact ⟨h', heq, (hset _).mpr (.inl rfl)⟩

/-- From time 10 on it would be, too, but a block is taken that has been free since time 0. -/
theorem not_bestFit_atStart : (oneBusy.handleAlloc 1 0 5 10).map Prod.fst = some 31 ∧
    ⟨1, 10⟩ ∈ oneBusy.blocksSorted ∧ ⟨31, 0⟩ ∈ oneBusy.blocksSorted ∧
      ¬BestFit oneBusy.blocksSorted 10 ⟨31, 0⟩ := by
  have hbusy : ⟨1, 10⟩ ∈ oneBusy.blocksSorted := by decide +kernel
  refine ⟨by decide +kernel, hbusy, by decide +kernel, fun hbest => ?_⟩
  unfold BestFit at hbest
  rw [if_pos ⟨⟨1, 10⟩, hbusy, Nat.le_refl _⟩] at hbest
  exact absurd (hbest.2 ⟨1, 10⟩ hbusy (Nat.le_refl _)) (by decide)

end Handle

end P4db
