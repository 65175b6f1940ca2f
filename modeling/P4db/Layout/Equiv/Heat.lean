import Mathlib.Data.Prod.Lex
import P4db.Layout.Equiv.DeclusteredLayout

/-!
# Slots in the order of heat

The constructor places the keys from the hottest one to the coldest one, and each register array
numbers the keys that it gets in this order.

* `map_regArrayId_built`, `pairwise_slot_built`, `pairwise_heat_built`: register array, slot and
  heat of the keys in the order in which they are placed.
* `perm_onRegister`: the keys that a layout has on a register array.
* `heatOrdered`: the slots of a register array are used from slot 0 on without gaps, hotter keys
  first, and only the hottest one has no lock.
-/

namespace P4db.DeclusteredLayout

open UnorderedMap

/-! ### Heat -/

/-- Frequency and key, compared by the frequency first. -/
def heat (pr : DbKey × ℕ) : ℕ ×ₗ DbKey := toLex (pr.2, pr.1)

/-- The comparator puts the hotter one first. -/
theorem hotterFirst_iff_heat_le {pr₁ pr₂ : DbKey × ℕ} :
    hotterFirst pr₁ pr₂ = true ↔ heat pr₂ ≤ heat pr₁ := by
  rw [hotterFirst_iff, heat, heat, Prod.Lex.toLex_le_toLex, eq_comm]

theorem heat_injective : Function.Injective heat := by
  rintro ⟨k₁, f₁⟩ ⟨k₂, f₂⟩ h
  obtain ⟨rfl, rfl⟩ := Prod.mk.inj (toLex.injective h)
  rfl

/-- The keys of the distribution that are on a register array. -/
def onRegister (l : DeclusteredLayout) (r : ℕ) : List (DbKey × ℕ) :=
  l.idFreq.filter fun pr => (l.virtMap pr.1).any fun loc => loc.regArrayId = r

/-- The slots are handed out by heat. -/
structure HeatOrdered (l : DeclusteredLayout) : Prop where
  /-- Every key of the distribution is on a register array. -/
  placed : ∀ pr ∈ l.idFreq, ∃ r < nRegs, pr ∈ l.onRegister r
  /-- The slots that a register array uses are the first ones. -/
  slot : ∀ r i, (∃ pr ∈ l.onRegister r, (l.entry pr.1).regArrayIdx = i) ↔
    i < (l.onRegister r).length
  /-- Of two keys on a register array the hotter one has the smaller slot. -/
  hotter : ∀ r, ∀ pr₁ ∈ l.onRegister r, ∀ pr₂ ∈ l.onRegister r,
    (l.entry pr₁.1).regArrayIdx < (l.entry pr₂.1).regArrayIdx ↔ heat pr₂ < heat pr₁
  /-- A key has no lock exactly if it is in slot 0. -/
  noLock_iff : ∀ pr ∈ l.idFreq, (l.entry pr.1).lockPos = noLock ↔ (l.entry pr.1).regArrayIdx = 0
  /-- The key without a lock is the hottest one of its register array. -/
  hottest : ∀ r, ∀ pr ∈ l.onRegister r, (l.entry pr.1).lockPos = noLock →
    ∀ pr' ∈ l.onRegister r, pr' ≠ pr → heat pr' < heat pr
  /-- Every other key has a lock of the switch. -/
  lockPos_lt : ∀ pr ∈ l.idFreq, (l.entry pr.1).regArrayIdx ≠ 0 → (l.entry pr.1).lockPos < nSwLocks

section Built

variable {sorted idFreq : List (DbKey × ℕ)}

/-! ### The order in which the keys are placed -/

theorem map_regArrayId_built (sorted : List (DbKey × ℕ)) :
    (built sorted).map (fun e => e.2.regArrayId) = assignedRegs sorted := by
  have hpos := congrArg (List.map Prod.fst) (map_pos_built sorted)
  rw [List.map_map, List.map_map] at hpos
  exact hpos.trans (map_fst_slots _ _)

/-- A key that is placed earlier has the smaller slot on its register array. -/
theorem pairwise_slot_built (h : ∀ r < nRegs, (assignedRegs sorted).count r ≤ 2 ^ 16) :
    (built sorted).Pairwise fun e₁ e₂ =>
      e₁.2.regArrayId = e₂.2.regArrayId → e₁.2.regArrayIdx < e₂.2.regArrayIdx := by
  have hpos := slots_pairwise (fun _ => 0) (assignedRegs sorted)
  rw [← map_pos_built_of_le h, List.pairwise_map] at hpos
  exact hpos

/-- A key that is placed earlier is hotter. -/
theorem pairwise_heat_built (hnd : (sorted.map Prod.fst).Nodup)
    (hsort : sorted.Pairwise fun pr₁ pr₂ => hotterFirst pr₁ pr₂ = true) :
    (built sorted).Pairwise fun e₁ e₂ => heat (e₂.1, e₂.2.distFreq) <
    heat (e₁.1, e₁.2.distFreq) := by
  have hlt : sorted.Pairwise fun pr₁ pr₂ => heat pr₂ < heat pr₁ := by
    apply (hsort.and (List.Nodup.of_map Prod.fst hnd)).imp
    rintro pr₁ pr₂ ⟨hle, hne⟩
    exact lt_of_le_of_ne (hotterFirst_iff_heat_le.mp hle) fun heq => hne (heat_injective heq).symm
  rw [← map_distFreq_built sorted, List.pairwise_map] at hlt
  exact hlt

/-- Slots and heat on the same register array. -/
theorem slot_lt_iff_heat_lt (hnd : (sorted.map Prod.fst).Nodup)
    (hsort : sorted.Pairwise fun pr₁ pr₂ => hotterFirst pr₁ pr₂ = true)
    (h : ∀ r < nRegs, (assignedRegs sorted).count r ≤ 2 ^ 16) {e₁ e₂ : DbKey × TupleLocation}
    (h₁ : e₁ ∈ built sorted) (h₂ : e₂ ∈ built sorted) (hreg : e₁.2.regArrayId = e₂.2.regArrayId) :
    e₁.2.regArrayIdx < e₂.2.regArrayIdx ↔ heat (e₂.1, e₂.2.distFreq) <
      heat (e₁.1, e₁.2.distFreq) := by
  have hboth := (pairwise_slot_built h).and (pairwise_heat_built hnd hsort)
  refine List.Pairwise.forall_of_forall_of_flip (R := fun e₁ e₂ : DbKey × TupleLocation =>
    e₁.2.regArrayId = e₂.2.regArrayId → (e₁.2.regArrayIdx < e₂.2.regArrayIdx ↔
      heat (e₂.1, e₂.2.distFreq) < heat (e₁.1, e₁.2.distFreq))) ?_ ?_ ?_ h₁ h₂ hreg
  · exact fun e _ _ => iff_of_false (lt_irrefl _) (lt_irrefl _)
  · exact hboth.imp fun h hreg => iff_of_true (h.1 hreg) h.2
  · exact hboth.imp fun h hreg => iff_of_false (h.1 hreg.symm).not_gt h.2.not_gt

theorem lockPos_eq_noLock_iff {e : DbKey × TupleLocation} (h : e ∈ built sorted) :
    e.2.lockPos = noLock ↔ e.2.regArrayIdx = 0 := by
  refine Placement.of_mem_locs (Q := fun loc => loc.lockPos = noLock ↔ loc.regArrayIdx = 0)
    (fun p pr => ?_) h
  have hlt : lowest nSwLocks p.lockWeight < nSwLocks := lowest_lt (by decide) _
  have hne : lowest nSwLocks p.lockWeight ≠ noLock := Nat.ne_of_lt (Nat.lt_trans hlt (by decide))
  rw [p.lockPos_loc pr]
  split_ifs with hidx
  · exact iff_of_false hne hidx
  · exact iff_of_true rfl (not_not.mp hidx)

/-! ### The keys on a register array -/

/-- A key of the distribution with its location. -/
theorem exists_built (hperm : sorted.Perm idFreq) {pr : DbKey × ℕ} (hpr : pr ∈ idFreq) :
    ∃ e ∈ built sorted, (e.1, e.2.distFreq) = pr := by
  rw [← hperm.mem_iff, ← map_distFreq_built sorted, List.mem_map] at hpr
  exact hpr

section Layout

variable (hnd : (idFreq.map Prod.fst).Nodup) (hperm : sorted.Perm idFreq)
include hnd hperm

theorem virtMap_eq_some_iff {e : DbKey × TupleLocation} :
    (ofSorted sorted idFreq).virtMap e.1 = some e.2 ↔ e ∈ built sorted := by
  have hkeys : ((built sorted).map Prod.fst).Nodup := by
    rw [map_fst_built]
    exact (hperm.map Prod.fst).nodup_iff.mpr hnd
  rw [virtMap_ofSorted, emplaceAll_eq_some_iff _ hkeys]

theorem entry_eq {e : DbKey × TupleLocation} (h : e ∈ built sorted) :
    (ofSorted sorted idFreq).entry e.1 = e.2 := by
  unfold entry
  rw [(virtMap_eq_some_iff hnd hperm).mpr h, Option.getD_some]

theorem perm_onRegister (r : ℕ) : ((ofSorted sorted idFreq).onRegister r).Perm
    (((built sorted).filter fun e => e.2.regArrayId = r).map fun e => (e.1, e.2.distFreq)) := by
  set P : DbKey × ℕ → Bool := fun pr => ((ofSorted sorted idFreq).virtMap pr.1).any fun loc =>
    loc.regArrayId = r
  have hfilter : (built sorted).filter (P ∘ fun e => (e.1, e.2.distFreq)) =
      (built sorted).filter fun e => e.2.regArrayId = r := by
    apply List.filter_congr
    intro e he
    show ((ofSorted sorted idFreq).virtMap e.1).any (fun loc => loc.regArrayId = r) = _
    rw [(virtMap_eq_some_iff hnd hperm).mpr he, Option.any_some]
  have hsorted : sorted.filter P =
      ((built sorted).filter fun e => e.2.regArrayId = r).map fun e => (e.1, e.2.distFreq) := by
    rw [← hfilter, ← List.filter_map, map_distFreq_built]
  rw [← hsorted]
  exact (hperm.filter P).symm

theorem mem_onRegister_iff {r : ℕ} {pr : DbKey × ℕ} : pr ∈ (ofSorted sorted idFreq).onRegister r ↔
    ∃ e ∈ built sorted, e.2.regArrayId = r ∧ (e.1, e.2.distFreq) = pr := by
  rw [(perm_onRegister hnd hperm r).mem_iff, List.mem_map]
  simp only [List.mem_filter, decide_eq_true_eq, and_assoc]

theorem length_onRegister (r : ℕ) :
    ((ofSorted sorted idFreq).onRegister r).length = (assignedRegs sorted).count r := by
  rw [(perm_onRegister hnd hperm r).length_eq, List.length_map, ← map_regArrayId_built,
    List.count_eq_countP, List.countP_map, List.countP_eq_length_filter]
  congr 1

/-- The slots that are used on a register array. -/
theorem exists_slot_iff (h : ∀ r < nRegs, (assignedRegs sorted).count r ≤ 2 ^ 16) (r i : ℕ) :
    (∃ pr ∈ (ofSorted sorted idFreq).onRegister r,
      ((ofSorted sorted idFreq).entry pr.1).regArrayIdx = i) ↔
      i < ((ofSorted sorted idFreq).onRegister r).length := by
  have hpos : i < (assignedRegs sorted).count r ↔ ∃ e ∈ built sorted, e.2.pos = (r, i) := by
    rw [← List.mem_map, map_pos_built_of_le h, mem_slots_iff, Nat.zero_add]
    exact (and_iff_right (Nat.zero_le i)).symm
  rw [length_onRegister hnd hperm, hpos]
  constructor
  · rintro ⟨pr, hpr, hi⟩
    obtain ⟨e, he, hr, rfl⟩ := (mem_onRegister_iff hnd hperm).mp hpr
    rw [entry_eq hnd hperm he] at hi
    exact ⟨e, he, Prod.ext hr hi⟩
  · rintro ⟨e, he, heq⟩
    obtain ⟨hr, hi⟩ := Prod.mk.inj heq
    refine ⟨_, (mem_onRegister_iff hnd hperm).mpr ⟨e, he, hr, rfl⟩, ?_⟩
    rw [entry_eq hnd hperm he]
    exact hi

end Layout

end Built

/-- **Slots are handed out by heat.**  Let the keys of a distribution be different, let `sorted` be
the distribution in the order of the comparator, and let the layout have at most `2 ^ 16` keys on
each register array.

* The slots that a register array uses are exactly those below the number of its keys.
* Of two keys on a register array the one with the smaller slot has the greater frequency, or the
  same frequency and the greater key.
* The key without a lock is in slot 0 and is the hottest one of its register array, and all other
  keys have a lock. -/
theorem heatOrdered (idFreq sorted : List (DbKey × ℕ)) (hnd : (idFreq.map Prod.fst).Nodup)
    (hperm : sorted.Perm idFreq) (hsort : sorted.Pairwise fun pr₁ pr₂ => hotterFirst pr₁ pr₂ = true)
    (hload : ∀ r < nRegs, ((ofSorted sorted idFreq).onRegister r).length ≤ 65536) :
    HeatOrdered (ofSorted sorted idFreq) := by
  have hnd' : (sorted.map Prod.fst).Nodup := (hperm.map Prod.fst).nodup_iff.mpr hnd
  have hcount : ∀ r < nRegs, (assignedRegs sorted).count r ≤ 2 ^ 16 := by
    intro r hr
    rw [← length_onRegister hnd hperm]
    exact hload r hr
  have hhotter : ∀ r, ∀ pr₁ ∈ (ofSorted sorted idFreq).onRegister r,
      ∀ pr₂ ∈ (ofSorted sorted idFreq).onRegister r, ((ofSorted sorted idFreq).entry
      pr₁.1).regArrayIdx < ((ofSorted sorted idFreq).entry pr₂.1).regArrayIdx ↔
        heat pr₂ < heat pr₁ := by
    intro r pr₁ hpr₁ pr₂ hpr₂
    obtain ⟨e₁, h₁, hr₁, rfl⟩ := (mem_onRegister_iff hnd hperm).mp hpr₁
    obtain ⟨e₂, h₂, hr₂, rfl⟩ := (mem_onRegister_iff hnd hperm).mp hpr₂
    rw [entry_eq hnd hperm h₁, entry_eq hnd hperm h₂]
    exact slot_lt_iff_heat_lt hnd' hsort hcount h₁ h₂ (hr₁.trans hr₂.symm)
  have hnoLock : ∀ pr ∈ idFreq, ((ofSorted sorted idFreq).entry pr.1).lockPos = noLock ↔
      ((ofSorted sorted idFreq).entry pr.1).regArrayIdx = 0 := by
    intro pr hpr
    obtain ⟨e, he, rfl⟩ := exists_built hperm hpr
    rw [entry_eq hnd hperm he]
    exact lockPos_eq_noLock_iff he
  constructor
  case placed =>
    intro pr hpr
    obtain ⟨e, he, heq⟩ := exists_built hperm hpr
    exact ⟨e.2.regArrayId, regArrayId_lt he, (mem_onRegister_iff hnd hperm).mpr ⟨e, he, rfl, heq⟩⟩
  case slot => exact exists_slot_iff hnd hperm hcount
  case hotter => exact hhotter
  case noLock_iff => exact hnoLock
  case hottest =>
    intro r pr hpr hlock pr' hpr' hne
    have hzero := (hnoLock pr (List.mem_of_mem_filter hpr)).mp hlock
    -- nothing comes before slot 0
    have hle : heat pr' ≤ heat pr := by
      rw [← not_lt, ← hhotter r pr' hpr' pr hpr, hzero]
      exact Nat.not_lt_zero _
    exact lt_of_le_of_ne hle fun heq => hne (heat_injective heq)
  case lockPos_lt =>
    intro pr hpr hidx
    obtain ⟨e, he, rfl⟩ := exists_built hperm hpr
    rw [entry_eq hnd hperm he] at hidx ⊢
    have hrange : InRange e.2 := Placement.of_mem_locs inRange_loc he
    exact hrange.2 fun hlock => hidx ((lockPos_eq_noLock_iff he).mp hlock)

/-- Key 9 is on register array 0; the keys 5 and 3 have frequency 0 and share register array 1, 5 in
slot 0. -/
theorem heatOrdered_threeKeys : HeatOrdered (ofIdFreq [(3, 0), (9, 2), (5, 0)]) ∧
    (ofIdFreq [(3, 0), (9, 2), (5, 0)]).onRegister 1 = [(3, 0), (5, 0)] :=
  ⟨heatOrdered [(3, 0), (9, 2), (5, 0)] (sortByHeat [(3, 0), (9, 2), (5, 0)]) (by decide)
  (perm_sortByHeat _)
    (pairwise_sortByHeat _) fun _ _ => Nat.le_trans (List.length_filter_le _ _)
    (show 3 ≤ 65536 by decide), by decide +kernel⟩

end P4db.DeclusteredLayout
