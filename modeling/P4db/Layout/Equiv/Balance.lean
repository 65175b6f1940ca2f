import P4db.Algorithm.Balance
import P4db.Layout.Equiv.DeclusteredLayout

/-!
# Balance of the declustered layout

* `Loaded.place`: one iteration of the constructor's loop, where the sums do not overflow.
* `DeclusteredLayout.balanced`: the registers and the locks of a layout are balanced.
-/

namespace P4db

open Balance CountMap UnorderedMap

/-- Register and frequency of the keys, in the order in which they were placed. -/
def regItems (es : List (DbKey × TupleLocation)) : List (ℕ × ℕ) :=
  es.map fun e => (e.2.regArrayId, e.2.distFreq)

/-- Lock and frequency of the keys that carry a lock. -/
def lockItems (es : List (DbKey × TupleLocation)) : List (ℕ × ℕ) :=
  (es.filter fun e => e.2.lockPos ≠ noLock).map fun e => (e.2.lockPos, e.2.distFreq)

/-- The weights of the loop, after the locations `es`. -/
structure Loaded (es : List (DbKey × TupleLocation)) (p : Placement) : Prop where
  weight : p.weight = load (regItems es)
  lockWeight : p.lockWeight = load (lockItems es)
  regs : Balanced nRegs (regItems es)
  locks : Balanced nSwLocks (lockItems es)

theorem total_lockItems_le (es : List (DbKey × TupleLocation)) :
    total (lockItems es) ≤ total (regItems es) := by
  induction es with
  | nil => exact Nat.le_refl _
  | cons e es ih =>
    unfold lockItems regItems at *
    rw [List.filter_cons, List.map_cons, total_cons]
    split_ifs
    · rw [List.map_cons, total_cons]
      exact Nat.add_le_add_left ih _
    · exact Nat.le_trans ih (Nat.le_add_left _ _)

/-- One more item, where the addition on `size_t` does not overflow. -/
theorem update_load {es : List (ℕ × ℕ)} {b f : ℕ} (h : total es + f < 2 ^ 64) :
    Function.update (load es) b ((load es b + f) % 2 ^ 64) = load (es ++ [(b, f)]) := by
  have hle := load_le_total es b
  rw [Nat.mod_eq_of_lt (by omega)]
  funext c
  rw [load_append_singleton]
  by_cases hc : c = b
  · rw [hc, Function.update_self, if_pos rfl]
  · rw [Function.update_of_ne hc, if_neg (Ne.symm hc), Nat.add_zero]

/-- What the next key adds to the locks. -/
theorem lockItems_append_loc (es : List (DbKey × TupleLocation)) (p : Placement) (pr : DbKey × ℕ) :
    lockItems (es ++ [(pr.1, p.loc pr)]) = lockItems es ++
      if (p.loc pr).regArrayIdx ≠ 0 then [(lowest nSwLocks p.lockWeight, pr.2)] else [] := by
  have hlk : lowest nSwLocks p.lockWeight ≠ noLock := by
    have hlt : lowest nSwLocks p.lockWeight < nSwLocks := lowest_lt (by decide) _
    exact Nat.ne_of_lt (Nat.lt_trans hlt (by decide))
  have hpos := p.lockPos_loc pr
  have hfreq : (p.loc pr).distFreq = pr.2 := rfl
  unfold lockItems
  rw [List.filter_append, List.map_append]
  split_ifs at hpos ⊢ with h
  · simp [hpos, hlk, hfreq]
  · simp [hpos]

/-- One iteration of the loop. -/
theorem Loaded.place {es : List (DbKey × TupleLocation)} {p : Placement} (h : Loaded es p)
    {pr : DbKey × ℕ} (hsum : total (regItems es) + pr.2 < 2 ^ 64) :
    Loaded (es ++ [(pr.1, p.loc pr)]) (p.place pr) := by
  have hlow : p.rLow = lowest nRegs (load (regItems es)) := congrArg (lowest nRegs) h.weight
  have hregs : regItems (es ++ [(pr.1, p.loc pr)]) = regItems es ++ [(p.rLow, pr.2)] := by
    rw [← p.regArrayId_loc pr]
    exact List.map_append
  have hlocks := lockItems_append_loc es p pr
  have hle := total_lockItems_le es
  constructor
  case weight =>
    show Function.update p.weight p.rLow ((p.weight p.rLow + pr.2) % 2 ^ 64) = _
    rw [hregs, h.weight]
    exact update_load hsum
  case regs =>
    rw [hregs, hlow]
    exact h.regs.append_lowest pr.2
  case lockWeight =>
    show (if (p.loc pr).regArrayIdx ≠ 0 then Function.update p.lockWeight
      (lowest nSwLocks p.lockWeight) ((p.lockWeight (lowest nSwLocks p.lockWeight) + pr.2) % 2 ^ 64)
      else p.lockWeight) = _
    rw [hlocks]
    split_ifs
    · rw [h.lockWeight]
      exact update_load (by omega)
    · rw [List.append_nil]
      exact h.lockWeight
  case locks =>
    rw [hlocks]
    split_ifs
    · rw [h.lockWeight]
      exact h.locks.append_lowest pr.2
    · rw [List.append_nil]
      exact h.locks

theorem total_regItems_locs (p : Placement) (l : List (DbKey × ℕ)) :
    total (regItems (p.locs l)) = total l := by
  induction l generalizing p with
  | nil => rfl
  | cons pr l ih =>
    show (p.loc pr).distFreq + total (regItems ((p.place pr).locs l)) = pr.2 + total l
    rw [ih]
    rfl

/-- The whole loop. -/
theorem Loaded.foldl {es : List (DbKey × TupleLocation)} {p : Placement} (h : Loaded es p)
    {l : List (DbKey × ℕ)} (hsum : total (regItems es) + total l < 2 ^ 64) :
    Loaded (es ++ p.locs l) (l.foldl Placement.place p) := by
  induction l generalizing es p with
  | nil =>
    show Loaded (es ++ []) p
    rw [List.append_nil]
    exact h
  | cons pr l ih =>
    rw [total_cons] at hsum
    have hnext : Loaded (es ++ [(pr.1, p.loc pr)]) (p.place pr) := h.place (by omega)
    have hitems : total (regItems (es ++ [(pr.1, p.loc pr)])) = total (regItems es) + pr.2 := by
      unfold regItems
      rw [List.map_append, total_append]
      rfl
    have hall := ih hnext (by omega)
    rw [List.append_assoc, List.singleton_append] at hall
    exact hall

namespace DeclusteredLayout

/-- **The layout is balanced.**  Let the frequencies of a distribution sum up to less than `2 ^ 64`,
and let `sorted` be the order in which the constructor places the keys.

* Every key is placed once, with its frequency.
* No register has more than another one and the last key that was placed on it.
* The same holds for the locks and the keys that carry a lock.
* No register has more than the average and the greatest frequency.
* If the keys are different, the locations are those that the layout has for them. -/
theorem balanced (idFreq sorted : List (DbKey × ℕ)) (hperm : sorted.Perm idFreq)
    (hsum : total idFreq < 2 ^ 64) :
    (built sorted).map (fun e => (e.1, e.2.distFreq)) = sorted ∧
    (∀ a < nRegs, ∀ b < nRegs, load (regItems (built sorted)) a ≤
      load (regItems (built sorted)) b + lastIn (regItems (built sorted)) a) ∧
    (∀ a < nSwLocks, ∀ b < nSwLocks, load (lockItems (built sorted)) a ≤
      load (lockItems (built sorted)) b + lastIn (lockItems (built sorted)) a) ∧
    (∀ a < nRegs, ∀ M, (∀ pr ∈ idFreq, pr.2 ≤ M) →
      nRegs * load (regItems (built sorted)) a ≤ total idFreq + nRegs * M) ∧
    ((idFreq.map Prod.fst).Nodup →
      ∀ e, e ∈ built sorted ↔ (ofSorted sorted idFreq).virtMap e.1 = some e.2) := by
  have hinit : Loaded [] Placement.init := ⟨rfl, rfl, balanced_nil _, balanced_nil _⟩
  have htotal : total sorted = total idFreq := total_perm hperm
  have hloaded : Loaded (built sorted) (sorted.foldl Placement.place Placement.init) := by
    refine hinit.foldl ?_
    show 0 + total sorted < 2 ^ 64
    omega
  have hplaced := map_distFreq_built sorted
  refine ⟨hplaced, hloaded.regs, hloaded.locks, ?_, ?_⟩
  · intro a ha M hM
    have hbin : ∀ e ∈ regItems (built sorted), e.1 < nRegs := by
      intro e he
      obtain ⟨e', he', rfl⟩ := List.mem_map.mp he
      exact regArrayId_lt he'
    have hfreq : ∀ e ∈ regItems (built sorted), e.2 ≤ M := by
      intro e he
      obtain ⟨e', he', rfl⟩ := List.mem_map.mp he
      have hmem : (e'.1, e'.2.distFreq) ∈ sorted := by
        rw [← hplaced]
        exact List.mem_map_of_mem he'
      exact hM (e'.1, e'.2.distFreq) (hperm.mem_iff.mp hmem)
    have havg := hloaded.regs.average hbin hfreq ha
    rw [show total (regItems (built sorted)) = total idFreq from (total_regItems_locs _ _).trans
      htotal] at havg
    exact havg
  · intro hnd e
    rw [virtMap_ofSorted, emplaceAll_eq_some_iff _
      (by rw [map_fst_built]; exact (hperm.map Prod.fst).nodup_iff.mpr hnd)]

/-- Two keys are on two registers. -/
theorem balanced_twoKeys : load (regItems (built [(5, 3), (7, 2)])) 0 ≤
    load (regItems (built [(5, 3), (7, 2)])) 1 + lastIn (regItems (built [(5, 3), (7, 2)])) 0 :=
  (balanced [(7, 2), (5, 3)] [(5, 3), (7, 2)] (List.Perm.swap _ _ _) (by decide)).2.1 0 (by decide)
  1 (by decide)

end DeclusteredLayout

end P4db
