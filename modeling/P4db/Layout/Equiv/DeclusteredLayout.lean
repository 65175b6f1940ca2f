import P4db.Layout.DeclusteredLayout

/-!
# Correctness of the declustered layout

The loop of the constructor is read as two insertions: `locs p l` is the list of the locations it
hands out, `virt_map` is that list inserted forwards (`foldl_place_virtMap`) and `rev_by_reg` is it
inserted backwards (`foldl_place_revByReg`).  The positions in the list are the least-loaded
assignment of the keys to the register arrays, numbered within every array and cut to 16 bits
(`map_pos_locs`).

* `roundTrip_iff`: forward and reverse map are inverse to each other on the hot slots exactly when
  no register array is assigned more than `2 ^ 16` keys.  The next key of an array that already has
  `2 ^ 16` is given slot 0 a second time.
* `answersSound_iff`: a sequence of lookups is answered soundly exactly when it only asks for keys
  of the distribution.  Any other key is reported hot, in slot 0 of register array 0.
* `Reachable.inRange_location`: every answer names a register array and a lock bit that exist.
* `layout_eq_of_perm`: the maps do not depend on the order in which the distribution is given.
-/

namespace P4db

open UnorderedMap

variable {k : DbKey} {e : DbKey × TupleLocation} {l : DeclusteredLayout} {keys : List DbKey}

/-- The register arrays the keys of a distribution are assigned to, in the order of the sort. -/
def assignedRegs (sorted : List (DbKey × ℕ)) : List ℕ :=
  leastLoaded nRegs (fun w f => (w + f) % 2 ^ 64) (fun _ => 0) (sorted.map Prod.snd)

/-- The number of keys assigned to a register array. -/
def regLoad (idFreq : List (DbKey × ℕ)) (r : ℕ) : ℕ :=
  (assignedRegs (sortByHeat idFreq)).count r

namespace TupleLocation

/-- Register array and slot. -/
def pos (loc : TupleLocation) : ℕ × ℕ := (loc.regArrayId, loc.regArrayIdx)

end TupleLocation

namespace Placement

/-! ### The locations handed out by the loop -/

/-- Numbers of registers are not cut. -/
theorem regArrayId_loc (p : Placement) (pr : DbKey × ℕ) : (p.loc pr).regArrayId = p.rLow := by
  have hlow : p.rLow < nRegs := lowest_lt (by decide) _
  exact Nat.mod_eq_of_lt (Nat.lt_trans hlow (by decide))

/-- A key has the lock that is least loaded, or it is in slot 0 and has none. -/
theorem lockPos_loc (p : Placement) (pr : DbKey × ℕ) : (p.loc pr).lockPos =
    if (p.loc pr).regArrayIdx ≠ 0 then lowest nSwLocks p.lockWeight else noLock := by
  have hlk : lowest nSwLocks p.lockWeight < nSwLocks := lowest_lt (by decide) _
  have hmod : lowest nSwLocks p.lockWeight % 2 ^ 8 = lowest nSwLocks p.lockWeight :=
    Nat.mod_eq_of_lt (Nat.lt_trans hlk (by decide))
  unfold loc
  dsimp only
  rw [hmod]

/-- The keys of a list with the locations the loop gives them. -/
def locs : Placement → List (DbKey × ℕ) → List (DbKey × TupleLocation)
  | _, [] => []
  | p, pr :: l => (pr.1, p.loc pr) :: locs (p.place pr) l

@[simp] theorem map_fst_locs (p : Placement) (l : List (DbKey × ℕ)) :
    (locs p l).map Prod.fst = l.map Prod.fst := by
  induction l generalizing p with
  | nil => rfl
  | cons pr l ih => simp [locs, ih]

/-- The frequencies of the locations are those of the distribution. -/
theorem map_distFreq_locs (p : Placement) (l : List (DbKey × ℕ)) :
    (p.locs l).map (fun e => (e.1, e.2.distFreq)) = l := by
  induction l generalizing p with
  | nil => rfl
  | cons pr l ih =>
    show pr :: ((p.place pr).locs l).map (fun e => (e.1, e.2.distFreq)) = pr :: l
    rw [ih]

/-- What the loop body ensures of every location. -/
theorem of_mem_locs {Q : TupleLocation → Prop} (hloc : ∀ p pr, Q (loc p pr)) {p : Placement}
    {l : List (DbKey × ℕ)} (h : e ∈ p.locs l) : Q e.2 := by
  induction l generalizing p with
  | nil => exact absurd h List.not_mem_nil
  | cons pr l ih =>
    rcases List.mem_cons.mp h with rfl | h
    · exact hloc p pr
    · exact ih h

theorem foldl_place_virtMap (p : Placement) (l : List (DbKey × ℕ)) :
    (l.foldl place p).virtMap = emplaceAll p.virtMap (locs p l) := by
  induction l generalizing p with
  | nil => rfl
  | cons pr l ih => rw [List.foldl_cons, ih, locs, emplaceAll_cons]; rfl

/-- The reverse maps of all register arrays as one map on positions. -/
theorem foldl_place_revByReg (p : Placement) (l : List (DbKey × ℕ)) (r i : ℕ) :
    (l.foldl place p).revByReg r i =
      emplaceAll (fun q : ℕ × ℕ => p.revByReg q.1 q.2)
        ((locs p l).map fun e => (e.2.pos, e.1)) (r, i) := by
  induction l generalizing p with
  | nil => rfl
  | cons pr l ih =>
    rw [List.foldl_cons, ih, locs, List.map_cons, emplaceAll_cons]
    congr 1
    funext q
    exact update_emplace_apply p.revByReg _ _ _ q

/-- The positions handed out: the numbered least-loaded assignment, cut to the field widths. -/
theorem map_pos_locs (p : Placement) (l : List (DbKey × ℕ)) :
    (locs p l).map (fun e => e.2.pos) =
      (slots p.idxToAlloc (leastLoaded nRegs (fun w f => (w + f) % 2 ^ 64) p.weight
        (l.map Prod.snd))).map fun s => (s.1 % 2 ^ 8, s.2 % 2 ^ 16) := by
  induction l generalizing p with
  | nil => rfl
  | cons pr l ih =>
    rw [locs, List.map_cons, ih, List.map_cons, leastLoaded, slots, List.map_cons]
    rfl

end Placement

namespace DeclusteredLayout

section Build

variable (sorted idFreq : List (DbKey × ℕ))

/-- The locations handed out by the constructor. -/
def built : List (DbKey × TupleLocation) := Placement.locs Placement.init sorted

theorem map_fst_built : (built sorted).map Prod.fst = sorted.map Prod.fst :=
  Placement.map_fst_locs _ _

theorem map_distFreq_built : (built sorted).map (fun e => (e.1, e.2.distFreq)) = sorted :=
  Placement.map_distFreq_locs _ _

theorem virtMap_ofSorted : (ofSorted sorted idFreq).virtMap = emplaceAll empty (built sorted) :=
  Placement.foldl_place_virtMap _ _

theorem revByReg_ofSorted (r i : ℕ) :
    (ofSorted sorted idFreq).revByReg r i =
      emplaceAll empty ((built sorted).map fun e => (e.2.pos, e.1)) (r, i) :=
  Placement.foldl_place_revByReg _ _ _ _

/-- Register numbers fit their 8-bit field, so only the slot numbers are cut. -/
theorem map_pos_built :
    (built sorted).map (fun e => e.2.pos) =
      (slots (fun _ => 0) (assignedRegs sorted)).map fun s => (s.1, s.2 % 2 ^ 16) := by
  rw [built, Placement.map_pos_locs]
  apply List.map_congr_left
  rintro ⟨r, i⟩ hmem
  have hr : r < nRegs := by
    have hcount : i < 0 + (assignedRegs sorted).count r := (mem_slots_iff.mp hmem).2
    have hpos : 0 < (assignedRegs sorted).count r := by omega
    exact lt_of_mem_leastLoaded (by decide) (List.count_pos_iff.mp hpos)
  simp only [nRegs] at hr
  simp only [Prod.mk.injEq, and_true]
  omega

end Build

/-! ### Lookups in a built layout -/

section Lookup

variable {sorted idFreq : List (DbKey × ℕ)} {b : ℕ}

/-- The answer for a key of the distribution is read off the location it was handed. -/
theorem getLocation_of_mem (hnd : (sorted.map Prod.fst).Nodup) (h : e ∈ built sorted) :
    (((ofSorted sorted idFreq).withBlock b).getLocation e.1).1 =
      (decide (e.2.regArrayIdx < slotsPerSchedBlock),
        { e.2 with regArrayIdx := (slotsPerSchedBlock * b + e.2.regArrayIdx) % 2 ^ 16 }) := by
  have hv : ((ofSorted sorted idFreq).withBlock b).virtMap e.1 = some e.2 := by
    show (ofSorted sorted idFreq).virtMap e.1 = some e.2
    rw [virtMap_ofSorted, emplaceAll_eq_some_iff _ (by rw [map_fst_built]; exact hnd)]
    exact h
  simp only [getLocation, hv, Option.getD_some]
  rfl

/-- Reading back a slot of the allocated block. -/
theorem revLookup_block (hb : b < 32) {r s : ℕ} (hs : s < slotsPerSchedBlock) :
    ((ofSorted sorted idFreq).withBlock b).revLookup r (slotsPerSchedBlock * b + s) =
      emplaceAll empty ((built sorted).map fun e => (e.2.pos, e.1)) (r, s) := by
  simp only [slotsPerSchedBlock] at hs
  have hidx : (32 * b + s + 2 ^ 64 - 32 * b % 2 ^ 64) % 2 ^ 64 = s := by omega
  show (ofSorted sorted idFreq).revByReg r ((32 * b + s + 2 ^ 64 - 32 * b % 2 ^ 64) % 2 ^ 64) = _
  rw [hidx, revByReg_ofSorted]

end Lookup

/-! ### The round trip -/

/-- Forward and reverse lookups are inverse to each other on the slots of the allocated block. -/
structure RoundTrip (l : DeclusteredLayout) (keys : List DbKey) : Prop where
  /-- Distinct hot keys have different locations. -/
  distinct : ∀ k₁ ∈ keys, ∀ k₂ ∈ keys, k₁ ≠ k₂ → l.isHot k₁ = true → l.isHot k₂ = true →
    (l.location k₁).pos ≠ (l.location k₂).pos
  /-- The location of a hot key leads back to it. -/
  revLookup_location : ∀ k ∈ keys, l.isHot k = true →
    l.revLookup (l.location k).regArrayId (l.location k).regArrayIdx = some k
  /-- A key found at a slot of the block is hot at that very slot. -/
  location_revLookup : ∀ r < nRegs, ∀ s < slotsPerSchedBlock, ∀ k,
    l.revLookup r (slotsPerSchedBlock * l.blockNum + s) = some k →
      l.isHot k = true ∧ (l.location k).pos = (r, slotsPerSchedBlock * l.blockNum + s)

/-- When no register array overflows its 16-bit slot numbers, none of them is cut. -/
theorem map_pos_built_of_le {sorted : List (DbKey × ℕ)}
    (h : ∀ r < nRegs, (assignedRegs sorted).count r ≤ 2 ^ 16) :
    (built sorted).map (fun e => e.2.pos) = slots (fun _ => 0) (assignedRegs sorted) := by
  rw [map_pos_built]
  refine (List.map_congr_left ?_).trans (List.map_id _)
  rintro ⟨r, i⟩ hs
  have hi : i < 0 + (assignedRegs sorted).count r := (mem_slots_iff.mp hs).2
  have hr : r ∈ assignedRegs sorted := List.count_pos_iff.mp (by omega)
  have hle := h r (lt_of_mem_leastLoaded (by decide) hr)
  show (r, i % 2 ^ 16) = (r, i)
  rw [Nat.mod_eq_of_lt (by omega)]

/-- All positions are different then. -/
theorem nodup_pos_built {sorted : List (DbKey × ℕ)}
    (h : ∀ r < nRegs, (assignedRegs sorted).count r ≤ 2 ^ 16) :
    ((built sorted).map fun e => e.2.pos).Nodup := by
  rw [map_pos_built_of_le h]
  exact slots_nodup _ _

/-- An entry whose register array got more than `2 ^ 16` keys shares slot 0 with another one. -/
theorem exists_collision {sorted : List (DbKey × ℕ)} (hnd : (sorted.map Prod.fst).Nodup) {r : ℕ}
    (h : 2 ^ 16 < (assignedRegs sorted).count r) :
    ∃ e₁ ∈ built sorted, ∃ e₂ ∈ built sorted, e₁.1 ≠ e₂.1 ∧ e₁.2.pos = (r, 0) ∧
      e₂.2.pos = (r, 0) := by
  set S := slots (fun _ => 0) (assignedRegs sorted) with hS
  have h₁ : (r, 0) ∈ S := mem_slots_iff.mpr ⟨le_rfl, by omega⟩
  have h₂ : (r, 2 ^ 16) ∈ S := mem_slots_iff.mpr ⟨Nat.zero_le _, by omega⟩
  obtain ⟨i, hi, hSi⟩ := List.mem_iff_getElem.mp h₁
  obtain ⟨j, hj, hSj⟩ := List.mem_iff_getElem.mp h₂
  have hij : i ≠ j := by
    rintro rfl
    rw [hSi] at hSj
    exact absurd (Prod.mk.inj hSj).2 (by decide)
  have hmap := map_pos_built sorted
  have hlen : (built sorted).length = S.length := by
    have := congrArg List.length hmap
    simpa using this
  have hget : ∀ n (hn : n < (built sorted).length) (hn' : n < S.length),
      (built sorted)[n].2.pos = (S[n].1, S[n].2 % 2 ^ 16) := by
    intro n hn hn'
    have := List.getElem_of_eq hmap (i := n) (by simpa using hn)
    simpa using this
  have hi' : i < (built sorted).length := hlen ▸ hi
  have hj' : j < (built sorted).length := hlen ▸ hj
  refine ⟨_, List.getElem_mem hi', _, List.getElem_mem hj', ?_, ?_, ?_⟩
  · -- distinct positions of a list without repetitions carry distinct keys
    intro hk
    have hnd' : ((built sorted).map Prod.fst).Nodup := by rw [map_fst_built]; exact hnd
    have hi₁ : i < ((built sorted).map Prod.fst).length := by simpa using hi'
    have hj₁ : j < ((built sorted).map Prod.fst).length := by simpa using hj'
    have hkeys : ((built sorted).map Prod.fst)[i] = ((built sorted).map Prod.fst)[j] := by
      simpa using hk
    exact hij (hnd'.getElem_inj_iff.mp hkeys)
  · rw [hget i hi' hi, hSi]; rfl
  · rw [hget j hj' hj, hSj, Nat.mod_self]

section RoundTrip

variable {idFreq : List (DbKey × ℕ)} {b : ℕ}

theorem perm_sortByHeat (idFreq : List (DbKey × ℕ)) : (sortByHeat idFreq).Perm idFreq :=
  List.perm_insertionSort _ _

theorem mem_keys_iff {sorted : List (DbKey × ℕ)} (hp : sorted.Perm idFreq) :
    k ∈ idFreq.map Prod.fst ↔ ∃ e ∈ built sorted, e.1 = k := by
  rw [← (hp.map Prod.fst).mem_iff, ← map_fst_built, List.mem_map]

theorem nodup_sorted (hnd : (idFreq.map Prod.fst).Nodup) :
    ((sortByHeat idFreq).map Prod.fst).Nodup :=
  ((perm_sortByHeat idFreq).map Prod.fst).nodup_iff.mpr hnd

theorem isHot_of_mem (hnd : (idFreq.map Prod.fst).Nodup) (h : e ∈ built (sortByHeat idFreq)) :
    ((ofIdFreq idFreq).withBlock b).isHot e.1 = true ↔ e.2.regArrayIdx < slotsPerSchedBlock := by
  rw [isHot, ofIdFreq, getLocation_of_mem (nodup_sorted hnd) h, decide_eq_true_iff]

/-- The reported location of a hot key, inside the allocated block. -/
theorem pos_location_of_mem (hnd : (idFreq.map Prod.fst).Nodup) (hb : b < 32)
    (h : e ∈ built (sortByHeat idFreq)) (hhot : e.2.regArrayIdx < slotsPerSchedBlock) :
    (((ofIdFreq idFreq).withBlock b).location e.1).pos =
      (e.2.regArrayId, slotsPerSchedBlock * b + e.2.regArrayIdx) := by
  rw [location, ofIdFreq, getLocation_of_mem (nodup_sorted hnd) h]
  simp only [TupleLocation.pos, Prod.mk.injEq, true_and]
  simp only [slotsPerSchedBlock] at hhot ⊢
  omega

theorem regArrayId_lt {sorted : List (DbKey × ℕ)} (h : e ∈ built sorted) :
    e.2.regArrayId < nRegs := by
  have hmem : e.2.pos ∈ (built sorted).map fun e => e.2.pos := List.mem_map_of_mem h
  rw [map_pos_built] at hmem
  obtain ⟨⟨r, i⟩, hs, heq⟩ := List.mem_map.mp hmem
  have hi : i < 0 + (assignedRegs sorted).count r := (mem_slots_iff.mp hs).2
  have hr : r ∈ assignedRegs sorted := List.count_pos_iff.mp (by omega)
  rw [← (Prod.mk.inj heq).1]
  exact lt_of_mem_leastLoaded (by decide) hr

theorem virtMap_of_mem (hnd : (idFreq.map Prod.fst).Nodup) (h : e ∈ built (sortByHeat idFreq)) :
    ((ofIdFreq idFreq).withBlock b).virtMap e.1 = some e.2 := by
  show (ofSorted (sortByHeat idFreq) idFreq).virtMap e.1 = some e.2
  rw [virtMap_ofSorted,
    emplaceAll_eq_some_iff _ (by rw [map_fst_built]; exact nodup_sorted hnd)]
  exact h

/-- A key found in a slot of the block is the key of an entry placed there. -/
theorem exists_of_revLookup (hb : b < 32) {r s : ℕ} (hs : s < slotsPerSchedBlock)
    (h : ((ofIdFreq idFreq).withBlock b).revLookup r (slotsPerSchedBlock * b + s) = some k) :
    ∃ e ∈ built (sortByHeat idFreq), e.1 = k ∧ e.2.regArrayId = r ∧ e.2.regArrayIdx = s := by
  rw [ofIdFreq, revLookup_block hb hs] at h
  obtain ⟨e, he, heq⟩ := List.mem_map.mp (mem_of_emplaceAll_eq_some h)
  obtain ⟨hpos, hk⟩ := Prod.mk.inj heq
  obtain ⟨hr, hi⟩ := Prod.mk.inj hpos
  exact ⟨e, he, hk, hr, hi⟩

theorem roundTrip_of_regLoad_le (hnd : (idFreq.map Prod.fst).Nodup) (hb : b < 32)
    (h : ∀ r < nRegs, regLoad idFreq r ≤ 2 ^ 16) :
    RoundTrip ((ofIdFreq idFreq).withBlock b) (idFreq.map Prod.fst) := by
  have hpos := nodup_pos_built h
  have hrev : ((built (sortByHeat idFreq)).map fun e => (e.2.pos, e.1)).map Prod.fst =
      (built (sortByHeat idFreq)).map fun e => e.2.pos := by
    rw [List.map_map]; rfl
  refine ⟨?_, ?_, ?_⟩
  · intro k₁ hk₁ k₂ hk₂ hne hhot₁ hhot₂ heq
    obtain ⟨e₁, he₁, rfl⟩ := (mem_keys_iff (perm_sortByHeat idFreq)).mp hk₁
    obtain ⟨e₂, he₂, rfl⟩ := (mem_keys_iff (perm_sortByHeat idFreq)).mp hk₂
    rw [isHot_of_mem hnd he₁] at hhot₁
    rw [isHot_of_mem hnd he₂] at hhot₂
    rw [pos_location_of_mem hnd hb he₁ hhot₁, pos_location_of_mem hnd hb he₂ hhot₂] at heq
    -- the block offset is the same on both sides, so the placed positions agree
    have hp : e₁.2.pos = e₂.2.pos := by
      simp only [TupleLocation.pos, Prod.mk.injEq] at heq ⊢
      exact ⟨heq.1, by omega⟩
    exact hne (congrArg Prod.fst (List.inj_on_of_nodup_map hpos he₁ he₂ hp))
  · intro k hk hhot
    obtain ⟨e, he, rfl⟩ := (mem_keys_iff (perm_sortByHeat idFreq)).mp hk
    rw [isHot_of_mem hnd he] at hhot
    obtain ⟨hr, hi⟩ := Prod.mk.inj (pos_location_of_mem hnd hb he hhot)
    rw [hr, hi, ofIdFreq, revLookup_block hb hhot,
      emplaceAll_eq_some_iff _ (by rw [hrev]; exact hpos)]
    exact List.mem_map.mpr ⟨e, he, rfl⟩
  · intro r _ s hs k hk
    obtain ⟨e, he, rfl, hr, hi⟩ := exists_of_revLookup hb hs hk
    have hhot : e.2.regArrayIdx < slotsPerSchedBlock := hi ▸ hs
    refine ⟨(isHot_of_mem hnd he).mpr hhot, ?_⟩
    rw [pos_location_of_mem hnd hb he hhot, hr, hi]
    rfl

theorem not_roundTrip_of_lt_regLoad (hnd : (idFreq.map Prod.fst).Nodup) (hb : b < 32) {r : ℕ}
    (h : 2 ^ 16 < regLoad idFreq r) :
    ¬RoundTrip ((ofIdFreq idFreq).withBlock b) (idFreq.map Prod.fst) := by
  intro hrt
  obtain ⟨e₁, he₁, e₂, he₂, hne, hp₁, hp₂⟩ := exists_collision (nodup_sorted hnd) h
  obtain ⟨hr₁, hi₁⟩ := Prod.mk.inj hp₁
  obtain ⟨hr₂, hi₂⟩ := Prod.mk.inj hp₂
  have hhot₁ : e₁.2.regArrayIdx < slotsPerSchedBlock := by rw [hi₁]; decide
  have hhot₂ : e₂.2.regArrayIdx < slotsPerSchedBlock := by rw [hi₂]; decide
  refine hrt.distinct e₁.1 ((mem_keys_iff (perm_sortByHeat _)).mpr ⟨e₁, he₁, rfl⟩) e₂.1
    ((mem_keys_iff (perm_sortByHeat _)).mpr ⟨e₂, he₂, rfl⟩) hne
    ((isHot_of_mem hnd he₁).mpr hhot₁) ((isHot_of_mem hnd he₂).mpr hhot₂) ?_
  rw [pos_location_of_mem hnd hb he₁ hhot₁, pos_location_of_mem hnd hb he₂ hhot₂, hr₁, hr₂, hi₁,
    hi₂]

/-- Up to `2 ^ 16` keys never overflow a register array. -/
theorem regLoad_le_length (idFreq : List (DbKey × ℕ)) (r : ℕ) :
    regLoad idFreq r ≤ idFreq.length := by
  refine (List.count_le_length).trans ?_
  rw [assignedRegs, length_leastLoaded, List.length_map, (perm_sortByHeat idFreq).length_eq]

/-- More than `72 * 2 ^ 16` keys always overflow some register array. -/
theorem exists_lt_regLoad (h : nRegs * 2 ^ 16 < idFreq.length) :
    ∃ r < nRegs, 2 ^ 16 < regLoad idFreq r := by
  refine exists_lt_count_leastLoaded (n := nRegs) (by decide) _ _ ?_
  rw [List.length_map, (perm_sortByHeat idFreq).length_eq]
  exact h

/-- **The layout round trip.** Forward and reverse lookup are inverse to each other on the hot
slots exactly when the least-loaded assignment gives no register array more than `2 ^ 16` keys. -/
theorem roundTrip_iff (idFreq : List (DbKey × ℕ)) (b : ℕ) (hnd : (idFreq.map Prod.fst).Nodup)
    (hb : b < 32) :
    RoundTrip ((ofIdFreq idFreq).withBlock b) (idFreq.map Prod.fst) ↔
      ∀ r < nRegs, regLoad idFreq r ≤ 2 ^ 16 := by
  refine ⟨fun hrt r _ => ?_, roundTrip_of_regLoad_le hnd hb⟩
  by_contra hlt
  exact not_roundTrip_of_lt_regLoad hnd hb (Nat.lt_of_not_le hlt) hrt

theorem roundTrip_iff_two_keys :
    ([(7, 3), (9, 2)].map Prod.fst).Nodup ∧ 5 < 32 ∧
      (∀ r < nRegs, regLoad [(7, 3), (9, 2)] r ≤ 2 ^ 16) ∧
      RoundTrip ((ofIdFreq [(7, 3), (9, 2)]).withBlock 5) ([(7, 3), (9, 2)].map Prod.fst) :=
  have hload : ∀ r < nRegs, regLoad [(7, 3), (9, 2)] r ≤ 2 ^ 16 :=
    fun r _ => (regLoad_le_length _ r).trans (by decide)
  ⟨by decide, by decide, hload,
    (roundTrip_iff [(7, 3), (9, 2)] 5 (by decide) (by decide)).mpr hload⟩

/-- The uniform distribution on the keys below `n`. -/
def uniform (n : ℕ) : List (DbKey × ℕ) := (List.range n).map fun k => (k, 1)

theorem map_fst_uniform (n : ℕ) : (uniform n).map Prod.fst = List.range n := by
  rw [uniform, List.map_map]
  exact List.map_id _

theorem not_roundTrip_uniform :
    ((uniform (nRegs * 2 ^ 16 + 1)).map Prod.fst).Nodup ∧
      ¬RoundTrip ((ofIdFreq (uniform (nRegs * 2 ^ 16 + 1))).withBlock 0)
        ((uniform (nRegs * 2 ^ 16 + 1)).map Prod.fst) := by
  have hnd : ((uniform (nRegs * 2 ^ 16 + 1)).map Prod.fst).Nodup := by
    rw [map_fst_uniform]
    exact List.nodup_range
  have hlen : nRegs * 2 ^ 16 < (uniform (nRegs * 2 ^ 16 + 1)).length := by
    rw [uniform, List.length_map, List.length_range]
    exact Nat.lt_succ_self _
  obtain ⟨r, _, hr⟩ := exists_lt_regLoad hlen
  exact ⟨hnd, not_roundTrip_of_lt_regLoad hnd (by decide) hr⟩

end RoundTrip

/-! ### Keys outside the distribution -/

section Outside

variable {sorted idFreq : List (DbKey × ℕ)}

/-- What every lookup keeps: no key outside `keys` has an entry other than the inserted zero. -/
def OutsideZero (l : DeclusteredLayout) (keys : List DbKey) : Prop :=
  ∀ k ∉ keys, (l.virtMap k).getD TupleLocation.zero = TupleLocation.zero

theorem outsideZero_ofSorted (b : ℕ) (hp : sorted.Perm idFreq) :
    OutsideZero ((ofSorted sorted idFreq).withBlock b) (idFreq.map Prod.fst) := by
  intro k hk
  have hnone : (ofSorted sorted idFreq).virtMap k = none := by
    rw [virtMap_ofSorted]
    apply emplaceAll_of_not_mem
    rw [map_fst_built, (hp.map Prod.fst).mem_iff]
    exact hk
  show ((ofSorted sorted idFreq).virtMap k).getD TupleLocation.zero = _
  rw [hnone, Option.getD_none]

theorem outsideZero_getLocation (h : OutsideZero l keys) (q : DbKey) :
    OutsideZero (l.getLocation q).2 keys := by
  intro k hk
  show (emplace l.virtMap q TupleLocation.zero k).getD TupleLocation.zero = _
  by_cases hq : k = q
  · subst hq
    cases hv : l.virtMap k with
    | none => rw [emplace_of_none _ hv, Function.update_self, Option.getD_some]
    | some c => rw [emplace_of_some _ hv]; exact h k hk
  · rw [emplace_ne _ _ hq]
    exact h k hk

/-- A key outside the distribution is reported hot, in slot 0 of register array 0. -/
theorem getLocation_of_outsideZero (h : OutsideZero l keys) (hk : k ∉ keys) :
    (l.getLocation k).1 = (true, ⟨0, slotsPerSchedBlock * l.blockNum % 2 ^ 16, 0, 0⟩) := by
  simp only [getLocation, h k hk]
  rfl

/-- The answers of a sequence of lookups are sound: hot keys belong to the distribution, and no
other key is reported where the reverse lookup finds a different one. -/
def AnswersSound (l : DeclusteredLayout) (keys : List DbKey)
    (answers : List (DbKey × Bool × TupleLocation)) : Prop :=
  ∀ a ∈ answers, (a.2.1 = true → a.1 ∈ keys) ∧
    (a.1 ∉ keys → ∀ k', k' ≠ a.1 → l.revLookup a.2.2.regArrayId a.2.2.regArrayIdx ≠ some k')

/-- Every key asked for has its answer in the list. -/
theorem exists_answer (l : DeclusteredLayout) {qs : List DbKey} (hk : k ∈ qs)
    (h : OutsideZero l keys) (hout : k ∉ keys) : ∃ loc, (k, true, loc) ∈ (l.getLocations qs).1 := by
  induction qs generalizing l with
  | nil => cases hk
  | cons q qs ih =>
    rcases List.mem_cons.mp hk with rfl | hk
    · have hans := getLocation_of_outsideZero h hout
      rw [getLocations, hans]
      exact ⟨_, List.mem_cons_self⟩
    · obtain ⟨loc, hloc⟩ := ih (l.getLocation q).2 hk (outsideZero_getLocation h q)
      exact ⟨loc, List.mem_cons_of_mem _ hloc⟩

theorem map_fst_getLocations (l : DeclusteredLayout) (qs : List DbKey) :
    (l.getLocations qs).1.map Prod.fst = qs := by
  induction qs generalizing l with
  | nil => rfl
  | cons q qs ih => rw [getLocations, List.map_cons, ih]

theorem not_answersSound {b : ℕ} (hp : sorted.Perm idFreq) {qs : List DbKey} (hk : k ∈ qs)
    (hout : k ∉ idFreq.map Prod.fst) :
    ¬AnswersSound ((ofSorted sorted idFreq).withBlock b) (idFreq.map Prod.fst)
      (((ofSorted sorted idFreq).withBlock b).getLocations qs).1 := by
  intro hs
  obtain ⟨loc, hloc⟩ := exists_answer _ hk (outsideZero_ofSorted b hp) hout
  exact hout ((hs _ hloc).1 rfl)

/-- **Lookups outside the distribution.** For every order the sort may leave, every block and every
sequence of lookups, the answers are sound exactly when only keys of the distribution are asked
for. -/
theorem answersSound_iff (sorted idFreq : List (DbKey × ℕ)) (b : ℕ) (qs : List DbKey)
    (hp : sorted.Perm idFreq) :
    AnswersSound ((ofSorted sorted idFreq).withBlock b) (idFreq.map Prod.fst)
        (((ofSorted sorted idFreq).withBlock b).getLocations qs).1 ↔
      ∀ k ∈ qs, k ∈ idFreq.map Prod.fst := by
  constructor
  · intro hs k hk
    by_contra hout
    exact not_answersSound hp hk hout hs
  · intro hqs a ha
    have hkey : a.1 ∈ idFreq.map Prod.fst := by
      apply hqs
      rw [← map_fst_getLocations ((ofSorted sorted idFreq).withBlock b) qs]
      exact List.mem_map_of_mem ha
    exact ⟨fun _ => hkey, fun hout => absurd hkey hout⟩

theorem answersSound_iff_two_keys :
    List.Perm [(9, 2), (7, 3)] [(7, 3), (9, 2)] ∧ (∀ k ∈ [7, 9, 7], k ∈ [7, 9]) ∧
      AnswersSound ((ofSorted [(9, 2), (7, 3)] [(7, 3), (9, 2)]).withBlock 1) [7, 9]
        (((ofSorted [(9, 2), (7, 3)] [(7, 3), (9, 2)]).withBlock 1).getLocations [7, 9, 7]).1 :=
  ⟨by decide, by decide,
    (answersSound_iff [(9, 2), (7, 3)] [(7, 3), (9, 2)] 1 [7, 9, 7] (by decide)).mpr (by decide)⟩

/-- The slot a key outside the distribution is sent to belongs to the first key of the sorted
list, so the two share a register. -/
theorem revLookup_outside {b : ℕ} (hb : b < 32) (pr : DbKey × ℕ) (rest : List (DbKey × ℕ)) :
    ((ofSorted (pr :: rest) idFreq).withBlock b).revLookup 0 (slotsPerSchedBlock * b) =
      some pr.1 := by
  have h : ((ofSorted (pr :: rest) idFreq).withBlock b).revLookup 0 (slotsPerSchedBlock * b + 0) =
      emplaceAll empty ((built (pr :: rest)).map fun e => (e.2.pos, e.1)) (0, 0) :=
    revLookup_block hb (by decide)
  rw [Nat.add_zero] at h
  rw [h, built, Placement.locs, List.map_cons, emplaceAll_cons]
  apply emplaceAll_of_some
  rw [emplace_of_none _ rfl]
  exact Function.update_self _ _ _

/-- Key 5000 is not among the keys below 4608; it is answered with the register of one of them. -/
theorem not_answersSound_uniform :
    5000 ∉ (uniform 4608).map Prod.fst ∧
      ¬AnswersSound ((ofIdFreq (uniform 4608)).withBlock 0) ((uniform 4608).map Prod.fst)
        (((ofIdFreq (uniform 4608)).withBlock 0).getLocations [5000]).1 ∧
      ∃ k ∈ (uniform 4608).map Prod.fst,
        ((ofIdFreq (uniform 4608)).withBlock 0).revLookup 0 0 = some k := by
  have hout : 5000 ∉ (uniform 4608).map Prod.fst := by
    rw [map_fst_uniform, List.mem_range]
    decide
  have hp := perm_sortByHeat (uniform 4608)
  refine ⟨hout, not_answersSound hp (List.mem_singleton.mpr rfl) hout, ?_⟩
  cases hs : sortByHeat (uniform 4608) with
  | nil =>
    have hlen := hp.length_eq
    rw [hs, uniform, List.length_map, List.length_range] at hlen
    exact absurd hlen (by decide)
  | cons pr rest =>
    refine ⟨pr.1, ?_, ?_⟩
    · rw [← (hp.map Prod.fst).mem_iff, hs]
      exact List.mem_cons_self
    · rw [ofIdFreq, hs]
      exact revLookup_outside (by decide) pr rest

end Outside

/-! ### What a run does to a layout -/

/-- The entry that a lookup reads. -/
def entry (l : DeclusteredLayout) (k : DbKey) : TupleLocation :=
  (l.virtMap k).getD TupleLocation.zero

theorem entry_getLocation (l : DeclusteredLayout) (q k : DbKey) :
    (l.getLocation q).2.entry k = l.entry k := by
  show (emplace l.virtMap q TupleLocation.zero k).getD TupleLocation.zero = _
  unfold entry
  by_cases hk : k = q
  · subst hk
    cases hv : l.virtMap k with
    | none => rw [emplace_of_none _ hv, Function.update_self, Option.getD_some, Option.getD_none]
    | some c => rw [emplace_of_some _ hv, hv]
  · rw [emplace_ne _ _ hk]

/-- A lookup changes no later answer. -/
theorem getLocation_getLocation (l : DeclusteredLayout) (q k : DbKey) :
    ((l.getLocation q).2.getLocation k).1 = (l.getLocation k).1 := by
  have hentry := entry_getLocation l q k
  unfold entry at hentry
  unfold getLocation at hentry ⊢
  simp only at hentry ⊢
  rw [hentry]

/-- The constructor hands out register arrays and lock bits that exist. -/
def InRange (loc : TupleLocation) : Prop :=
  loc.regArrayId < nRegs ∧ (loc.lockPos ≠ noLock → loc.lockPos < nSwLocks)

theorem inRange_zero : InRange TupleLocation.zero :=
  ⟨by decide, fun _ => by decide⟩

theorem inRange_loc (p : Placement) (pr : DbKey × ℕ) : InRange (p.loc pr) := by
  have hreg : p.rLow < nRegs := lowest_lt (by decide) _
  have hlock : lowest nSwLocks p.lockWeight < nSwLocks := lowest_lt (by decide) _
  unfold InRange Placement.loc
  simp only [nRegs, nSwLocks] at hreg hlock ⊢
  constructor
  · omega
  · split_ifs with h
    · intro _
      omega
    · exact fun hne => absurd rfl hne

theorem Reachable.inRange (h : Reachable l) (k : DbKey) : InRange (l.entry k) := by
  induction h with
  | @ofSorted sorted idFreq _ =>
    unfold entry
    rw [virtMap_ofSorted]
    cases hv : emplaceAll empty (built sorted) k with
    | none => exact inRange_zero
    | some loc => exact Placement.of_mem_locs inRange_loc (mem_of_emplaceAll_eq_some hv)
  | withBlock _ _ ih => exact ih
  | @getLocation l q _ ih =>
    rw [entry_getLocation]
    exact ih

/-- Every answer of a layout names a register array and a lock bit that exist. -/
theorem Reachable.inRange_location (h : Reachable l) (k : DbKey) :
    InRange (l.location k) :=
  h.inRange k

/-! ### Keys of equal frequency -/

/-- Where the `j`-th key goes if those before it have equal frequencies. -/
def dealtLoc (freq j : ℕ) : TupleLocation :=
  ⟨j % nRegs, j / nRegs, freq, if j / nRegs ≠ 0 then (j - nRegs) % nSwLocks else noLock⟩

/-- The arrays of the constructor after `j` keys of frequency `c`: the keys were dealt to the
register arrays in turn, and those behind slot 0 to the lock bits. -/
structure Dealt (c j : ℕ) (p : Placement) : Prop where
  weight : ∀ r < nRegs, p.weight r = c * turns nRegs j r
  idx : ∀ r < nRegs, p.idxToAlloc r = turns nRegs j r
  lock : ∀ l < nSwLocks, p.lockWeight l = c * turns nSwLocks (j - nRegs) l

theorem dealt_init (c : ℕ) : Dealt c 0 Placement.init :=
  ⟨fun _ _ => by simp [turns, Placement.init], fun _ _ => by simp [turns, Placement.init],
    fun _ _ => by simp [turns, Placement.init]⟩

section Dealt

variable {c j : ℕ} {p : Placement}

theorem Dealt.rLow (h : Dealt c j p) (hc : 0 < c) : p.rLow = j % nRegs :=
  lowest_turns (by decide) hc h.weight

theorem Dealt.lowest_lock (h : Dealt c j p) (hc : 0 < c) :
    lowest nSwLocks p.lockWeight = (j - nRegs) % nSwLocks :=
  lowest_turns (by decide) hc h.lock

theorem Dealt.loc (h : Dealt c j p) (hc : 0 < c) (hj : j < 2 ^ 16) (pr : DbKey × ℕ) :
    p.loc pr = dealtLoc pr.2 j := by
  have hidx : p.idxToAlloc (j % nRegs) = j / nRegs := by
    rw [h.idx _ (Nat.mod_lt j (by decide)), turns_mod]
  unfold Placement.loc dealtLoc
  rw [h.rLow hc, h.lowest_lock hc, hidx]
  have hreg : j % nRegs % 2 ^ 8 = j % nRegs := by
    simp only [nRegs]
    omega
  have hslot : j / nRegs % 2 ^ 16 = j / nRegs := by
    simp only [nRegs]
    omega
  have hbit : (j - nRegs) % nSwLocks % 2 ^ 8 = (j - nRegs) % nSwLocks := by
    simp only [nSwLocks]
    omega
  rw [hreg, hslot, hbit]

/-- A bin that gets an item of weight `c`. -/
theorem update_turns {n j : ℕ} {w : ℕ → ℕ} (hw : ∀ r < n, w r = c * turns n j r)
    (hbound : c * (j + 1) < 2 ^ 64) {r : ℕ} (hr : r < n) :
    Function.update w (j % n) ((w (j % n) + c) % 2 ^ 64) r = c * turns n (j + 1) r := by
  rw [turns_succ hr]
  by_cases heq : r = j % n
  · have hle : c * (j / n + 1) ≤ c * (j + 1) :=
      Nat.mul_le_mul_left c (Nat.succ_le_succ (Nat.div_le_self j n))
    have hnext : w (j % n) + c = c * (j / n + 1) := by
      rw [hw _ (heq ▸ hr), turns_mod, Nat.mul_add, Nat.mul_one]
    rw [heq, Function.update_self, if_pos rfl, turns_mod, hnext]
    exact Nat.mod_eq_of_lt (Nat.lt_of_le_of_lt hle hbound)
  · rw [Function.update_of_ne heq, hw r hr, if_neg heq, Nat.add_zero]

theorem Dealt.place (h : Dealt c j p) (hc : 0 < c) (hj : j < 2 ^ 16) (hbound : c * (j + 1) < 2 ^ 64)
    (k : DbKey) : Dealt c (j + 1) (p.place (k, c)) := by
  unfold Placement.place
  rw [h.rLow hc, h.lowest_lock hc, h.loc hc hj]
  refine ⟨fun r hr => update_turns h.weight hbound hr, fun r hr => ?_, fun l hl => ?_⟩
  · show Function.update p.idxToAlloc (j % nRegs) (p.idxToAlloc (j % nRegs) + 1) r = _
    rw [turns_succ hr]
    by_cases heq : r = j % nRegs
    · rw [heq, Function.update_self, if_pos rfl, h.idx _ (heq ▸ hr)]
    · rw [Function.update_of_ne heq, h.idx r hr, if_neg heq, Nat.add_zero]
  · by_cases hfirst : j < nRegs
    · -- the first key of a register array gets no lock
      have hslot : (dealtLoc c j).regArrayIdx = 0 := Nat.div_eq_of_lt hfirst
      simp only [hslot, ne_eq, not_true_eq_false, ↓reduceIte]
      rw [h.lock l hl, Nat.sub_eq_zero_of_le (Nat.le_of_lt hfirst), Nat.sub_eq_zero_of_le hfirst]
    · have hslot : (dealtLoc c j).regArrayIdx ≠ 0 :=
        Nat.pos_iff_ne_zero.mp (Nat.div_pos (Nat.not_lt.mp hfirst) (by decide))
      have hsub : j + 1 - nRegs = j - nRegs + 1 := by omega
      simp only [hslot, ne_eq, not_false_eq_true, ↓reduceIte]
      rw [hsub]
      refine update_turns h.lock (Nat.lt_of_le_of_lt ?_ hbound) hl
      exact Nat.mul_le_mul_left c (by omega)

/-- Keys of equal frequency, and what comes behind them. -/
theorem Dealt.locs (h : Dealt c j p) (hc : 0 < c) (ks : List DbKey) (hj : j + ks.length ≤ 2 ^ 16)
    (hbound : c * (j + ks.length) < 2 ^ 64) (rest : List (DbKey × ℕ)) :
    ∃ p', Dealt c (j + ks.length) p' ∧ p.locs (ks.map (fun k => (k, c)) ++ rest) =
      (ks.zipIdx j).map (fun e => (e.1, dealtLoc c e.2)) ++ p'.locs rest := by
  induction ks generalizing j p with
  | nil => exact ⟨p, h, rfl⟩
  | cons k ks ih =>
    rw [List.length_cons] at hj hbound
    have hnext : j + 1 + ks.length = j + (ks.length + 1) := by omega
    obtain ⟨p', hp', hlocs⟩ := ih (h.place hc (by omega)
      (Nat.lt_of_le_of_lt (Nat.mul_le_mul_left c (by omega)) hbound) k)
      (by omega) (hnext ▸ hbound)
    rw [hnext] at hp'
    refine ⟨p', hp', ?_⟩
    rw [List.map_cons, List.cons_append, Placement.locs, hlocs, h.loc hc (by omega),
      List.zipIdx_cons, List.map_cons, List.cons_append]

end Dealt

/-- The keys below `n` with frequency 2 and one more key with frequency 1, in the order that the
sort leaves. -/
def twoTier (n : ℕ) : List (DbKey × ℕ) := (List.range n).reverse.map (fun k => (k, 2)) ++ [(n, 1)]

theorem map_fst_twoTier (n : ℕ) : (twoTier n).map Prod.fst = (List.range n).reverse ++ [n] := by
  simp [twoTier, Function.comp_def]

theorem entry_twoTier {n k : ℕ} (hn : n < 2 ^ 16) (hk : k ≤ n) (b : ℕ) :
    ((ofSorted (twoTier n) (twoTier n)).withBlock b).entry k =
      if k = n then dealtLoc 1 n else dealtLoc 2 (n - 1 - k) := by
  obtain ⟨p, hp, hlocs⟩ := (dealt_init 2).locs (by decide) (List.range n).reverse
    (by simp; omega) (by simp; omega) [(n, 1)]
  simp only [List.length_reverse, List.length_range, Nat.zero_add] at hp
  have hnd : ((built (twoTier n)).map Prod.fst).Nodup := by
    rw [map_fst_built, map_fst_twoTier, ← List.concat_eq_append, List.nodup_concat,
      List.mem_reverse, List.mem_range]
    exact ⟨Nat.lt_irrefl n, List.nodup_reverse.mpr List.nodup_range⟩
  have hmem : (k, if k = n then dealtLoc 1 n else dealtLoc 2 (n - 1 - k)) ∈ built (twoTier n) := by
    unfold built twoTier
    rw [hlocs, List.mem_append]
    split_ifs with hlast
    · right
      rw [Placement.locs, hp.loc (by decide) hn, hlast]
      exact List.mem_cons_self
    · left
      refine List.mem_map.mpr ⟨(k, n - 1 - k), ?_, rfl⟩
      rw [List.mem_zipIdx_iff_getElem?, List.getElem?_reverse (by simp; omega), List.length_range,
        List.getElem?_range (by omega)]
      congr 1
      omega
  show ((ofSorted (twoTier n) (twoTier n)).virtMap k).getD TupleLocation.zero = _
  rw [virtMap_ofSorted, (emplaceAll_eq_some_iff _ hnd _ _).mpr hmem]
  rfl

/-! ### The order of the input -/

section Order

/-- The comparator orders by decreasing frequency, and by decreasing key where the frequencies are
equal. -/
theorem hotterFirst_iff (k₁ f₁ k₂ f₂ : ℕ) :
    hotterFirst (k₁, f₁) (k₂, f₂) = true ↔ f₂ < f₁ ∨ f₁ = f₂ ∧ k₂ ≤ k₁ := by
  unfold hotterFirst TupleLocation.totalOrderGt
  by_cases hfreq : f₁ = f₂
  · simp [hfreq]
  · simp only [ne_eq, hfreq, not_false_eq_true, if_true, Bool.not_eq_true', decide_eq_false_iff_not,
      false_and, or_false]
    omega

/-- Entries that may stand in either order are equal. -/
theorem hotterFirst_antisymm {pr₁ pr₂ : DbKey × ℕ} (h₁ : hotterFirst pr₁ pr₂ = true)
    (h₂ : hotterFirst pr₂ pr₁ = true) : pr₁ = pr₂ := by
  obtain ⟨k₁, f₁⟩ := pr₁
  obtain ⟨k₂, f₂⟩ := pr₂
  rw [hotterFirst_iff] at h₁ h₂
  have hkey : k₁ = k₂ := Nat.le_antisymm (by omega) (by omega)
  have hfreq : f₁ = f₂ := by omega
  rw [hkey, hfreq]

theorem hotterFirst_total (pr₁ pr₂ : DbKey × ℕ) :
    hotterFirst pr₁ pr₂ = true ∨ hotterFirst pr₂ pr₁ = true := by
  obtain ⟨k₁, f₁⟩ := pr₁
  obtain ⟨k₂, f₂⟩ := pr₂
  rw [hotterFirst_iff, hotterFirst_iff]
  omega

theorem hotterFirst_trans {pr₁ pr₂ pr₃ : DbKey × ℕ} (h₁₂ : hotterFirst pr₁ pr₂ = true)
    (h₂₃ : hotterFirst pr₂ pr₃ = true) : hotterFirst pr₁ pr₃ = true := by
  obtain ⟨k₁, f₁⟩ := pr₁
  obtain ⟨k₂, f₂⟩ := pr₂
  obtain ⟨k₃, f₃⟩ := pr₃
  rw [hotterFirst_iff] at *
  omega

/-- What the model takes for `std::sort` sorts. -/
theorem pairwise_sortByHeat (idFreq : List (DbKey × ℕ)) :
    (sortByHeat idFreq).Pairwise fun pr₁ pr₂ => hotterFirst pr₁ pr₂ = true := by
  have : Std.Total fun pr₁ pr₂ : DbKey × ℕ => hotterFirst pr₁ pr₂ = true := ⟨hotterFirst_total⟩
  have : IsTrans (DbKey × ℕ) fun pr₁ pr₂ => hotterFirst pr₁ pr₂ = true :=
    ⟨fun _ _ _ => hotterFirst_trans⟩
  exact List.pairwise_insertionSort _ _

/-- **The layout does not depend on the order of the input.**  Let `sort` be any function that puts
a list with distinct keys into the order of the comparator; then the layouts of two permutations of
a distribution have the same maps. -/
theorem layout_eq_of_perm (sort : List (DbKey × ℕ) → List (DbKey × ℕ))
    (hsort : ∀ l, (l.map Prod.fst).Nodup → (sort l).Perm l ∧
      (sort l).Pairwise fun pr₁ pr₂ => hotterFirst pr₁ pr₂ = true)
    (idFreq idFreq' : List (DbKey × ℕ)) (hnd : (idFreq.map Prod.fst).Nodup)
    (hperm : idFreq.Perm idFreq') :
    (ofSorted (sort idFreq) idFreq).virtMap = (ofSorted (sort idFreq') idFreq').virtMap ∧
      ∀ r, (ofSorted (sort idFreq) idFreq).revByReg r =
        (ofSorted (sort idFreq') idFreq').revByReg r := by
  have hnd' : (idFreq'.map Prod.fst).Nodup := (hperm.map Prod.fst).nodup_iff.mp hnd
  obtain ⟨hp, hs⟩ := hsort idFreq hnd
  obtain ⟨hp', hs'⟩ := hsort idFreq' hnd'
  have heq : sort idFreq = sort idFreq' :=
    List.Perm.eq_of_pairwise (fun _ _ _ _ => hotterFirst_antisymm) hs hs'
      (hp.trans (hperm.trans hp'.symm))
  unfold ofSorted
  rw [heq]
  exact ⟨rfl, fun _ => rfl⟩

/-- Three keys, two of them equally hot, in two orders. -/
theorem layout_eq_of_perm_three_keys :
    (ofIdFreq [(1, 5), (2, 5), (3, 9)]).virtMap = (ofIdFreq [(2, 5), (3, 9), (1, 5)]).virtMap :=
  (layout_eq_of_perm sortByHeat (fun l _ => ⟨perm_sortByHeat l, pairwise_sortByHeat l⟩)
    [(1, 5), (2, 5), (3, 9)] [(2, 5), (3, 9), (1, 5)] (by decide) (by decide)).1

end Order

end DeclusteredLayout

end P4db
