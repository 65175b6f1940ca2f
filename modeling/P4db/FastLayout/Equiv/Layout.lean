import P4db.Algorithm.Transition
import P4db.FastLayout.Layout

/-!
# The passes of a transaction

* `Layout.built_new`: the layout has a place for every key of the transactions it was built from,
  and in one register the keys with smaller slots have greater counts.
* `assignPasses_spec`: pass `j` has the `j`-th location of every register.
* `BuiltTxn.new_spec`: the locations and passes of a transaction.
* `passes_complete`: the passes have every operation, and there are no more passes than necessary.
-/

namespace P4db.FastLayout

open UnorderedMap (emplace emplaceAll empty)

variable {keys : List DbKey} {locs : List TupleLoc} {reg : ℕ × ℕ}

/-! ### The layout -/

theorem lowestReg_lt (weight : ℕ × ℕ → ℕ) :
    (lowestReg weight).1 < nStages ∧ (lowestReg weight).2 < regsPerStage := by
  unfold lowestReg
  refine List.foldlRecOn (motive := fun low : ℕ × ℕ => low.1 < nStages ∧ low.2 < regsPerStage) _ _
    (by decide) ?_
  intro low hlow s hs
  refine List.foldlRecOn (motive := fun low : ℕ × ℕ => low.1 < nStages ∧
    low.2 < regsPerStage) _ _ hlow ?_
  intro low hlow r hr
  split_ifs
  · exact ⟨List.mem_range.mp hs, List.mem_range.mp hr⟩
  · exact hlow

/-- The maps after the keys `done` were placed, which came in the order of their counts. -/
structure Placing.Inv (done : List (DbKey × ℕ)) (p : Placing) : Prop where
  forward_iff : ∀ k, (∃ loc, p.forward k = some loc) ↔ k ∈ done.map Prod.fst
  backward : ∀ k loc, p.forward k = some loc → p.backwardPerReg loc.register loc.idx = some k
  range : ∀ k loc, p.forward k = some loc → loc.stage < nStages ∧ loc.reg < regsPerStage
  idx_lt : ∀ k loc, p.forward k = some loc → loc.idx < p.idxToAlloc loc.register
  fresh : ∀ r i, p.idxToAlloc r ≤ i → p.backwardPerReg r i = none
  heat : ∀ e ∈ done, ∀ e' ∈ done, ∀ loc loc', p.forward e.1 = some loc →
    p.forward e'.1 = some loc' → loc.register = loc'.register → loc.idx < loc'.idx → e'.2 ≤ e.2

theorem Placing.inv_init : Placing.Inv [] Placing.init := by
  constructor <;> simp [Placing.init, empty]

/-- The location that the next key gets. -/
def Placing.nextLoc (p : Placing) : TupleLoc :=
  ⟨(lowestReg p.weight).1, (lowestReg p.weight).2, p.idxToAlloc (lowestReg p.weight)⟩

section Place

variable {done : List (DbKey × ℕ)} {p : Placing} {pr : DbKey × ℕ} {k : DbKey} {loc : TupleLoc}

theorem Placing.forward_place (p : Placing) (pr : DbKey × ℕ) :
    (p.place pr).forward = Function.update p.forward pr.1 (some p.nextLoc) := rfl

theorem Placing.idxToAlloc_place (p : Placing) (pr : DbKey × ℕ) : (p.place pr).idxToAlloc =
    Function.update p.idxToAlloc p.nextLoc.register (p.nextLoc.idx + 1) := rfl

/-- The slot of the next key is free. -/
theorem Placing.Inv.backward_place (h : Placing.Inv done p) (pr : DbKey × ℕ) :
    (p.place pr).backwardPerReg =
    Function.update p.backwardPerReg p.nextLoc.register
      (Function.update (p.backwardPerReg p.nextLoc.register) p.nextLoc.idx (some pr.1)) := by
  show Function.update p.backwardPerReg p.nextLoc.register
    (emplace (p.backwardPerReg p.nextLoc.register) p.nextLoc.idx pr.1) = _
  rw [UnorderedMap.emplace_of_none _ (h.fresh p.nextLoc.register p.nextLoc.idx (Nat.le_refl _))]

/-- A location is the new one, or an old one of another key. -/
theorem Placing.forward_place_cases (hloc : (p.place pr).forward k = some loc) :
    k = pr.1 ∧ loc = p.nextLoc ∨ k ≠ pr.1 ∧ p.forward k = some loc := by
  rw [forward_place] at hloc
  by_cases hk : k = pr.1
  · rw [hk, Function.update_self, Option.some.injEq] at hloc
    exact .inl ⟨hk, hloc.symm⟩
  · rw [Function.update_of_ne hk] at hloc
    exact .inr ⟨hk, hloc⟩

theorem Placing.Inv.backward_of_place (h : Placing.Inv done p)
    (hloc : (p.place pr).forward k = some loc) :
    (p.place pr).backwardPerReg loc.register loc.idx = some k := by
  rw [h.backward_place]
  rcases Placing.forward_place_cases hloc with ⟨rfl, rfl⟩ | ⟨-, hloc⟩
  · rw [Function.update_self, Function.update_self]
  · have hold := h.backward k loc hloc
    by_cases hr : loc.register = p.nextLoc.register
    · have hlt := h.idx_lt k loc hloc
      rw [hr] at hlt hold ⊢
      rw [Function.update_self,
        Function.update_of_ne (show loc.idx ≠ p.nextLoc.idx from Nat.ne_of_lt hlt)]
      exact hold
    · rw [Function.update_of_ne hr]
      exact hold

theorem Placing.Inv.idx_lt_place (h : Placing.Inv done p)
    (hloc : (p.place pr).forward k = some loc) :
    loc.idx < (p.place pr).idxToAlloc loc.register := by
  rw [Placing.idxToAlloc_place]
  rcases Placing.forward_place_cases hloc with ⟨-, rfl⟩ | ⟨-, hloc⟩
  · rw [Function.update_self]
    exact Nat.lt_succ_self _
  · have hlt := h.idx_lt k loc hloc
    by_cases hr : loc.register = p.nextLoc.register
    · rw [hr] at hlt ⊢
      rw [Function.update_self]
      exact Nat.lt_succ_of_lt hlt
    · rwa [Function.update_of_ne hr]

theorem Placing.Inv.fresh_place (h : Placing.Inv done p) {r : ℕ × ℕ} {i : ℕ}
    (hi : (p.place pr).idxToAlloc r ≤ i) : (p.place pr).backwardPerReg r i = none := by
  rw [Placing.idxToAlloc_place] at hi
  rw [h.backward_place]
  by_cases hr : r = p.nextLoc.register
  · rw [hr, Function.update_self] at hi ⊢
    rw [Function.update_of_ne (Nat.ne_of_gt hi)]
    exact h.fresh p.nextLoc.register i (Nat.le_of_succ_le hi)
  · rw [Function.update_of_ne hr] at hi ⊢
    exact h.fresh r i hi

/-- One iteration: the key is new, and its count is not greater than those of the keys before it. -/
theorem Placing.Inv.place (h : Placing.Inv done p) (hnew : pr.1 ∉ done.map Prod.fst)
    (hle : ∀ e ∈ done, pr.2 ≤ e.2) : Placing.Inv (done ++ [pr]) (p.place pr) := by
  constructor
  case forward_iff =>
    intro k
    rw [Placing.forward_place, List.map_append, List.mem_append, ← h.forward_iff]
    by_cases hk : k = pr.1
    · subst hk
      simp
    · rw [Function.update_of_ne hk]
      simp [hk]
  case backward => exact fun k loc hloc => h.backward_of_place hloc
  case range =>
    intro k loc hloc
    rcases Placing.forward_place_cases hloc with ⟨-, rfl⟩ | ⟨-, hloc⟩
    · exact lowestReg_lt p.weight
    · exact h.range k loc hloc
  case idx_lt => exact fun k loc hloc => h.idx_lt_place hloc
  case fresh => exact fun r i hi => h.fresh_place hi
  case heat =>
    intro e he e' he' loc loc' hloc hloc' hr hlt
    rcases Placing.forward_place_cases hloc with ⟨hk, rfl⟩ | ⟨hk, hloc⟩
    · -- nothing lies behind the new location
      rcases Placing.forward_place_cases hloc' with ⟨-, rfl⟩ | ⟨-, hloc'⟩
      · exact absurd hlt (Nat.lt_irrefl _)
      · have hlt' := h.idx_lt e'.1 loc' hloc'
        rw [← hr] at hlt'
        exact absurd hlt (Nat.not_lt_of_lt hlt')
    · have hold : e ∈ done := by
        rcases List.mem_append.mp he with he | he
        · exact he
        · exact absurd (congrArg Prod.fst (List.mem_singleton.mp he)) hk
      rcases List.mem_append.mp he' with he' | he'
      · have hk' : e'.1 ≠ pr.1 := fun heq => hnew (heq ▸ List.mem_map_of_mem he')
        rw [Placing.forward_place, Function.update_of_ne hk'] at hloc'
        exact h.heat e hold e' he' loc loc' hloc hloc' hr hlt
      · rw [List.mem_singleton.mp he']
        exact hle e hold

end Place

theorem Placing.inv_foldl {done rest : List (DbKey × ℕ)} {p : Placing} (h : Placing.Inv done p)
    (hnd : ((done ++ rest).map Prod.fst).Nodup)
    (hsorted : (done ++ rest).Pairwise fun p1 p2 => p2.2 ≤ p1.2) :
    Placing.Inv (done ++ rest) (rest.foldl Placing.place p) := by
  induction rest generalizing done p with
  | nil =>
    rw [List.append_nil]
    exact h
  | cons pr rest ih =>
    have hsplit : done ++ pr :: rest = done ++ [pr] ++ rest := by simp
    rw [hsplit] at hnd hsorted ⊢
    rw [List.foldl_cons]
    refine ih (h.place ?_ ?_) hnd hsorted
    · intro hmem
      rw [List.map_append, List.map_append, List.append_assoc] at hnd
      exact (List.nodup_append.mp hnd).2.2 _ hmem _ (by simp) rfl
    · intro e he
      exact (List.pairwise_append.mp (List.pairwise_append.mp hsorted).1).2.2 e he pr
        List.mem_cons_self

/-- What is known of a layout for `keys`. -/
structure Layout.Built (lay : Layout) (keys : List DbKey) : Prop where
  lookup_iff : ∀ k, (∃ loc, lay.lookup k = some loc) ↔ k ∈ keys
  revLookup : ∀ k loc, lay.lookup k = some loc → lay.revLookup loc = some k
  range : ∀ k loc, lay.lookup k = some loc → loc.stage < nStages ∧ loc.reg < regsPerStage
  getKeyCt : ∀ k ∈ keys, lay.getKeyCt k = some (keys.count k)
  heat : ∀ k k' loc loc', lay.lookup k = some loc → lay.lookup k' = some loc' →
    loc.register = loc'.register → loc.idx < loc'.idx → keys.count k' ≤ keys.count k

theorem Layout.built_new {sort : List (DbKey × ℕ) → List (DbKey × ℕ)} (hsort : IsSort sort)
    (txns : List Txn) : (Layout.new sort txns).Built (txns.flatMap Txn.ops) := by
  set keys := txns.flatMap Txn.ops with hkeys
  have hperm : (getKeyCts sort txns).Perm (CountMap.countAll keys) := hsort.perm _
  have hnd : ((getKeyCts sort txns).map Prod.fst).Nodup :=
    (hperm.map Prod.fst).nodup_iff.mpr (CountMap.nodup_countAll keys)
  have hinv : Placing.Inv (getKeyCts sort txns)
      ((getKeyCts sort txns).foldl Placing.place Placing.init) :=
    Placing.inv_foldl Placing.inv_init hnd (hsort.pairwise _)
  have hmem : ∀ k, k ∈ (getKeyCts sort txns).map Prod.fst ↔ k ∈ keys := fun k => by
    rw [(hperm.map Prod.fst).mem_iff, CountMap.mem_map_fst_countAll]
  have hentry : ∀ k ∈ keys, (k, keys.count k) ∈ getKeyCts sort txns := fun k hk =>
    hperm.mem_iff.mpr (CountMap.mem_countAll_iff.mpr ⟨rfl, List.count_pos_iff.mpr hk⟩)
  constructor
  case lookup_iff => exact fun k => (hinv.forward_iff k).trans (hmem k)
  case revLookup => exact hinv.backward
  case range => exact hinv.range
  case getKeyCt =>
    intro k hk
    show emplaceAll empty (getKeyCts sort txns) k = some (keys.count k)
    rw [UnorderedMap.emplaceAll_eq_some_iff _ hnd]
    exact hentry k hk
  case heat =>
    intro k k' loc loc' hl hl' hr hlt
    have hk : k ∈ keys := (hmem k).mp ((hinv.forward_iff k).mp ⟨loc, hl⟩)
    have hk' : k' ∈ keys := (hmem k').mp ((hinv.forward_iff k').mp ⟨loc', hl'⟩)
    exact hinv.heat _ (hentry k hk) _ (hentry k' hk') loc loc' hl hl' hr hlt

/-! ### Passes -/

/-- The locations in one register. -/
def column (locs : List TupleLoc) (reg : ℕ × ℕ) : List TupleLoc :=
  locs.filter fun tl => tl.register = reg

/-- Pass `j` with the `j`-th location of every register, over `pass`. -/
def passOver (locs : List TupleLoc) (j : ℕ) (pass : SwPassTxn) : SwPassTxn where
  grid s r := (column locs (s, r))[j]?.elim (pass.grid s r) fun tl => some tl.idx

/-- The order of the registers. -/
def regLe (a b : ℕ × ℕ) : Prop := a.1 < b.1 ∨ a.1 = b.1 ∧ a.2 ≤ b.2

theorem regLe_antisymm (a b : ℕ × ℕ) (h : regLe a b) (h' : regLe b a) : a = b := by
  unfold regLe at h h'
  ext <;> omega

theorem column_filter_ne (locs : List TupleLoc) (reg reg' : ℕ × ℕ) :
    column (locs.filter fun tl => tl.register ≠ reg) reg' = if reg' = reg then []
      else column locs reg' := by
  unfold column
  rw [List.filter_filter]
  split_ifs with h
  · rw [List.filter_eq_nil_iff]
    intro tl _
    simp [h]
  · apply List.filter_congr
    intro tl _
    by_cases htl : tl.register = reg'
    · simp [htl, h]
    · simp [htl]

/-- Locations that are all in one register. -/
theorem column_of_forall {run : List TupleLoc} (hreg : ∀ tl ∈ run, tl.register = reg)
    (reg' : ℕ × ℕ) : column run reg' = if reg' = reg then run else [] := by
  unfold column
  split_ifs with h
  · rw [List.filter_eq_self]
    intro tl htl
    simp [hreg tl htl, h]
  · rw [List.filter_eq_nil_iff]
    intro tl htl
    simp [hreg tl htl, Ne.symm h]

/-- A run is written over the passes as the column of its register. -/
theorem assignRun_map {run : List TupleLoc} (hreg : ∀ tl ∈ run, tl.register = reg) {n : ℕ}
    (hn : run.length ≤ n) (g : ℕ → SwPassTxn) :
    assignRun ((List.range n).map g) run =
      some ((List.range n).map fun j => passOver run j (g j)) := by
  have hlen : run.length ≤ ((List.range n).map g).length := by simpa using hn
  have hput := Fill.foldlM_put SwPassTxn.setLoc hlen []
  rw [List.nil_append, List.length_nil, List.nil_append] at hput
  unfold assignRun
  rw [hput, Option.map_some, Option.some.injEq]
  have hcol := fun s r => column_of_forall hreg (s, r)
  -- entry `j` is written exactly if the run has a location number `j`
  apply List.ext_getElem?
  intro j
  rw [List.getElem?_map]
  rcases Nat.lt_or_ge j run.length with hj | hj
  · have hjn : j < n := Nat.lt_of_lt_of_le hj hn
    rw [List.getElem?_append_left (by simpa using ⟨hjn, hj⟩), List.getElem?_zipWith,
      List.getElem?_map, List.getElem?_range hjn, List.getElem?_eq_getElem hj]
    dsimp only [Option.map_some]
    unfold passOver SwPassTxn.setLoc
    congr 2
    funext s r
    rw [hcol, hreg _ (List.getElem_mem hj)]
    split_ifs with h
    · rw [List.getElem?_eq_getElem hj]
      rfl
    · rfl
  · have hover : passOver run j (g j) = g j := by
      unfold passOver
      congr 1
      funext s r
      rw [hcol]
      split_ifs
      · rw [List.getElem?_eq_none hj]
        rfl
      · rfl
    rw [List.getElem?_append_right (by simp; omega), List.getElem?_drop, List.getElem?_map]
    have hpos : run.length +
        (j - (List.zipWith SwPassTxn.setLoc ((List.range n).map g) run).length) = j := by
      rw [List.length_zipWith, List.length_map, List.length_range]
      omega
    rw [hpos]
    rcases Nat.lt_or_ge j n with hjn | hjn
    · rw [List.getElem?_range hjn, Option.map_some, Option.map_some, hover]
    · rw [List.getElem?_eq_none (by simpa using hjn)]
      rfl

/-- The runs of sorted locations, written over passes that are enough for each of them. -/
theorem foldlM_assignRun (h : Runs.Sorted regLe TupleLoc.register locs) {n : ℕ}
    (hn : ∀ reg, (column locs reg).length ≤ n) (g : ℕ → SwPassTxn) :
    (Runs.runs TupleLoc.register locs).foldlM assignRun ((List.range n).map g) =
      some ((List.range n).map fun j => passOver locs j (g j)) := by
  refine Runs.sorted_induction (P := fun locs => (∀ reg, (column locs reg).length ≤ n) →
    ∀ g : ℕ → SwPassTxn, (Runs.runs TupleLoc.register locs).foldlM assignRun
    ((List.range n).map g) =
      some ((List.range n).map fun j => passOver locs j (g j))) ?_ ?_ h hn g
  · intro _ g
    rw [Runs.runs_nil]
    rfl
  · intro x l hl ih hn g
    have hrun : ∀ tl ∈ column (x :: l) x.register, tl.register = x.register := fun tl htl => by
      simpa using (List.mem_filter.mp htl).2
    have hcol := fun s r => column_of_forall hrun (s, r)
    have hrest : ∀ reg, (column ((x :: l).filter fun tl => tl.register ≠ x.register) reg).length ≤
        n := by
      intro reg
      rw [column_filter_ne]
      split_ifs
      · exact Nat.zero_le _
      · exact hn reg
    rw [Runs.runs_cons_of_sorted regLe_antisymm hl, List.foldlM_cons]
    show (assignRun _ (column (x :: l) x.register)).bind _ = _
    rw [assignRun_map hrun (hn x.register), Option.bind_some, ih hrest]
    congr 2
    funext j
    unfold passOver
    congr 1
    funext s r
    rw [column_filter_ne]
    dsimp only
    rw [hcol]
    split_ifs with hsr
    · rw [hsr]
      rfl
    · rfl

theorem foldl_longest (rs : List (List TupleLoc)) (n : ℕ) :
    let m := rs.foldl (fun nPasses run => if run.length > nPasses then run.length else nPasses) n
    n ≤ m ∧ (∀ run ∈ rs, run.length ≤ m) ∧ (m = n ∨ ∃ run ∈ rs, run.length = m) := by
  induction rs generalizing n with
  | nil => exact ⟨Nat.le_refl n, by simp, .inl rfl⟩
  | cons run rs ih =>
    obtain ⟨hle, hall, hex⟩ := ih (if run.length > n then run.length else n)
    rw [List.foldl_cons]
    dsimp only
    have hrun : n ≤ (if run.length > n then run.length else n) ∧
        run.length ≤ if run.length > n then run.length else n := by
      split_ifs with h
      · exact ⟨Nat.le_of_lt h, Nat.le_refl _⟩
      · exact ⟨Nat.le_refl _, Nat.le_of_not_lt h⟩
    refine ⟨Nat.le_trans hrun.1 hle, ?_, ?_⟩
    · intro run' hrun'
      rcases List.mem_cons.mp hrun' with rfl | hrun'
      · exact Nat.le_trans hrun.2 hle
      · exact hall run' hrun'
    · rcases hex with heq | ⟨run', hrun', heq⟩
      · split_ifs at heq ⊢ with h
        · exact .inr ⟨run, List.mem_cons_self, heq.symm⟩
        · exact .inl heq
      · exact .inr ⟨run', List.mem_cons_of_mem run hrun', heq⟩

/-- The number of passes is the length of the longest column. -/
theorem countPasses_spec (h : Runs.Sorted regLe TupleLoc.register locs) :
    (∀ reg, (column locs reg).length ≤ countPasses locs) ∧
      (locs = [] ∧ countPasses locs = 0 ∨ ∃ tl ∈ locs, (column locs tl.register).length =
        countPasses locs) := by
  obtain ⟨-, hall, hex⟩ := foldl_longest (Runs.runs TupleLoc.register locs) 0
  have hle : ∀ tl ∈ locs, (column locs tl.register).length ≤ countPasses locs := fun tl htl =>
    hall _ ((Runs.mem_runs_iff regLe_antisymm h).mpr ⟨tl, htl, rfl⟩)
  constructor
  · intro reg
    cases hcol : column locs reg with
    | nil => exact Nat.zero_le _
    | cons tl col =>
      obtain ⟨htl, hreg⟩ := List.mem_filter.mp (show tl ∈ column locs reg from hcol ▸
        List.mem_cons_self)
      rw [← hcol, ← show tl.register = reg by simpa using hreg]
      exact hle tl htl
  · rcases hex with hzero | ⟨run, hrun, hlen⟩
    · cases locs with
      | nil => exact .inl ⟨rfl, hzero⟩
      | cons tl l =>
        right
        refine ⟨tl, List.mem_cons_self, ?_⟩
        exact Nat.le_antisymm (hle tl List.mem_cons_self)
          (Nat.le_trans (Nat.le_of_eq hzero) (Nat.zero_le _))
    · obtain ⟨tl, htl, rfl⟩ := (Runs.mem_runs_iff regLe_antisymm h).mp hrun
      exact .inr ⟨tl, htl, hlen⟩

/-- The passes of sorted locations. -/
def locPasses (locs : List TupleLoc) : List SwPassTxn :=
  (List.range (countPasses locs)).map fun j => passOver locs j ⟨fun _ _ => none⟩

theorem assignPasses_spec (h : Runs.Sorted regLe TupleLoc.register locs) :
    assignPasses locs = some (locPasses locs) := by
  unfold assignPasses locPasses
  rw [← foldlM_assignRun h (countPasses_spec h).1, List.map_const', List.length_range]

/-- The slots of the passes in one register are the slots of its column. -/
theorem filterMap_locPasses (h : Runs.Sorted regLe TupleLoc.register locs) (s r : ℕ) :
    (locPasses locs).filterMap (fun pass => pass.grid s r) =
    (column locs (s, r)).map TupleLoc.idx := by
  have hle := (countPasses_spec h).1 (s, r)
  unfold locPasses
  rw [List.filterMap_map]
  generalize countPasses locs = n at hle
  show (List.range n).filterMap
    (fun j => (column locs (s, r))[j]?.elim none fun tl => some tl.idx) = _
  generalize column locs (s, r) = col at hle
  induction n generalizing col with
  | zero => simp [List.eq_nil_of_length_eq_zero (Nat.le_zero.mp hle)]
  | succ n ih =>
    cases col with
    | nil => simp
    | cons tl col =>
      rw [List.range_succ_eq_map, List.filterMap_cons, List.filterMap_map]
      exact congrArg (tl.idx :: ·) (ih col (Nat.le_of_succ_le_succ hle))

/-! ### The constructor of a transaction -/

/-- The order of the locations with their counts. -/
theorem locLess_eq_false_iff (p1 p2 : TupleLoc × ℕ) : locLess p2 p1 = false ↔
    regLe p1.1.register p2.1.register ∧
      (p1.1.register = p2.1.register → p2.2 ≤ p1.2 ∧ (p1.2 = p2.2 → p1.1.idx ≤ p2.1.idx)) := by
  unfold locLess regLe TupleLoc.register
  rw [Prod.mk.injEq]
  split_ifs <;> simp only [decide_eq_false_iff_not] <;> omega

theorem pairwise_sortLocs (tmp : List (TupleLoc × ℕ)) :
    (sortLocs tmp).Pairwise fun p1 p2 => locLess p2 p1 = false := by
  have : Std.Total fun p1 p2 : TupleLoc × ℕ => locLess p2 p1 = false := by
    constructor
    intro p1 p2
    rw [locLess_eq_false_iff, locLess_eq_false_iff]
    unfold regLe TupleLoc.register
    simp only [Prod.mk.injEq]
    omega
  have : IsTrans (TupleLoc × ℕ) fun p1 p2 => locLess p2 p1 = false := by
    constructor
    intro p1 p2 p3 h12 h23
    rw [locLess_eq_false_iff] at *
    unfold regLe TupleLoc.register at *
    simp only [Prod.mk.injEq] at *
    omega
  exact List.pairwise_insertionSort _ _

/-- The order of the locations of a transaction. -/
def Layout.LocLe (lay : Layout) (a b : TupleLoc) : Prop :=
  regLe a.register b.register ∧
    (a.register = b.register → ∃ ca cb, lay.ctAt a = some ca ∧ lay.ctAt b = some cb ∧ cb ≤ ca ∧
    (ca = cb → a.idx ≤ b.idx))

/-- What the constructor returns. -/
structure BuiltTxn.Made (port : ℕ) (lay : Layout) (txn : Txn) (t : BuiltTxn) : Prop where
  origTxn : t.origTxn = txn
  locks : t.locksCheck = 0 ∧ t.locksWanted = 0
  perm : (t.locs.map some).Perm (txn.ops.map lay.lookup)
  sorted : t.locs.Pairwise lay.LocLe
  passes : t.passes = locPasses t.locs
  header : t.port = port ∧ t.id = 0 ∧ t.passCt = 0 ∧ t.failCt = 0 ∧ t.valid = true

theorem Layout.Built.ctAt {lay : Layout} (h : lay.Built keys) {k : DbKey} {tl : TupleLoc}
    (hk : lay.lookup k = some tl) : lay.ctAt tl = some (keys.count k) := by
  unfold Layout.ctAt
  rw [h.revLookup k tl hk, Option.bind_some]
  exact h.getKeyCt k ((h.lookup_iff k).mp ⟨tl, hk⟩)

theorem BuiltTxn.new_spec {lay : Layout} (h : lay.Built keys) (port : ℕ) {txn : Txn}
    (hops : ∀ k ∈ txn.ops, k ∈ keys) (hlen : txn.ops.length ≤ 100) :
    ∃ t, BuiltTxn.new port lay txn = some t ∧ t.Made port lay txn := by
  obtain ⟨tmp, htmp⟩ := Transition.exists_mapM fun k hk => (h.lookup_iff k).mpr (hops k hk)
  have hmap := Transition.mapM_eq_some_iff.mp htmp
  have hcts : ∀ tl ∈ tmp, ∃ ct, lay.ctAt tl = some ct := by
    intro tl htl
    have hmem : some tl ∈ txn.ops.map lay.lookup := hmap ▸ List.mem_map_of_mem htl
    obtain ⟨k, -, hk⟩ := List.mem_map.mp hmem
    exact ⟨_, h.ctAt hk⟩
  obtain ⟨cts, hcts⟩ := Transition.exists_mapM hcts
  have hctsMap := Transition.mapM_eq_some_iff.mp hcts
  have hlenCts : tmp.length = cts.length := by simpa using congrArg List.length hctsMap
  have hpermZip : (sortLocs (tmp.zip cts)).Perm (tmp.zip cts) := List.perm_insertionSort _ _
  -- every location stands beside its count
  have hbeside : ∀ p ∈ sortLocs (tmp.zip cts), lay.ctAt p.1 = some p.2 := by
    intro p hp
    obtain ⟨i, hi⟩ := List.mem_iff_getElem?.mp (hpermZip.mem_iff.mp hp)
    obtain ⟨h1, h2⟩ := List.getElem?_zip_eq_some.mp hi
    have hi := congrArg (·[i]?) hctsMap
    simpa [h1, h2] using hi
  set locs := (sortLocs (tmp.zip cts)).map Prod.fst with hlocs
  have hsorted : locs.Pairwise lay.LocLe := by
    refine List.pairwise_map.mpr ((pairwise_sortLocs (tmp.zip cts)).imp_of_mem ?_)
    intro p1 p2 hp1 hp2 hle
    obtain ⟨hreg, hct⟩ := (locLess_eq_false_iff p1 p2).mp hle
    exact ⟨hreg, fun heq => ⟨p1.2, p2.2, hbeside p1 hp1, hbeside p2 hp2, hct heq⟩⟩
  have hperm : (locs.map some).Perm (txn.ops.map lay.lookup) := by
    rw [hmap]
    refine List.Perm.map some ((hpermZip.map Prod.fst).trans ?_)
    rw [List.map_fst_zip (Nat.le_of_eq hlenCts)]
  refine ⟨⟨⟨port, 0, 0, 0, true, 0, 0, 0, locPasses locs⟩, txn, locs⟩, ?_, rfl, ⟨rfl, rfl⟩, hperm,
    hsorted, rfl, rfl, rfl, rfl, rfl, rfl⟩
  unfold BuiltTxn.new
  rw [if_pos hlen, htmp, Option.bind_eq_bind, Option.bind_some, hcts, Option.bind_eq_bind,
    Option.bind_some]
  show (assignPasses locs).bind _ = _
  rw [assignPasses_spec (hsorted.imp fun hle => hle.1)]
  rfl

/-! ### Completeness of the passes -/

/-- How many of the passes have a location. -/
def timesIn (passes : List SwPassTxn) (tl : TupleLoc) : ℕ :=
  passes.countP fun pass => pass.grid tl.stage tl.reg = some tl.idx

/-- How many operations of a transaction have a location. -/
def Txn.timesAt (lay : Layout) (txn : Txn) (tl : TupleLoc) : ℕ :=
  txn.ops.countP fun k => lay.lookup k = some tl

/-- How many operations of a transaction are in a register. -/
def Txn.opsOn (lay : Layout) (txn : Txn) (reg : ℕ × ℕ) : ℕ :=
  txn.ops.countP fun k => (lay.lookup k).map TupleLoc.register = some reg

section Made

variable {port : ℕ} {lay : Layout} {txn : Txn} {t : BuiltTxn}

theorem BuiltTxn.Made.sortedReg (h : t.Made port lay txn) :
    Runs.Sorted regLe TupleLoc.register t.locs :=
  h.sorted.imp fun hle => hle.1

theorem BuiltTxn.Made.timesAt_eq (h : t.Made port lay txn) (tl : TupleLoc) :
    txn.timesAt lay tl = t.locs.count tl := by
  have hcount := h.perm.countP_eq fun o => decide (o = some tl)
  rw [List.countP_map, List.countP_map] at hcount
  unfold Txn.timesAt
  rw [List.count_eq_countP]
  refine hcount.symm.trans (List.countP_congr ?_)
  simp

theorem BuiltTxn.Made.opsOn_eq (h : t.Made port lay txn) (reg : ℕ × ℕ) :
    txn.opsOn lay reg = (column t.locs reg).length := by
  have hcount := h.perm.countP_eq fun o => decide (o.map TupleLoc.register = some reg)
  rw [List.countP_map, List.countP_map] at hcount
  unfold Txn.opsOn column
  rw [← List.countP_eq_length_filter]
  refine hcount.symm.trans (List.countP_congr ?_)
  simp

/-- How many passes have a location, from the slots in its register. -/
theorem timesIn_eq (passes : List SwPassTxn) (tl : TupleLoc) :
    timesIn passes tl = (passes.filterMap fun pass => pass.grid tl.stage tl.reg).count tl.idx := by
  unfold timesIn
  rw [List.count_filterMap]
  apply List.countP_congr
  simp

theorem BuiltTxn.Made.timesIn_eq_timesAt (h : t.Made port lay txn) (tl : TupleLoc) :
    timesIn t.passes tl = txn.timesAt lay tl := by
  rw [timesIn_eq, h.passes, filterMap_locPasses h.sortedReg, h.timesAt_eq]
  unfold column
  rw [List.count_eq_countP, List.countP_map, List.countP_filter, List.count_eq_countP]
  apply List.countP_congr
  rintro ⟨s, r, idx⟩ -
  obtain ⟨s', r', idx'⟩ := tl
  simp [TupleLoc.register]
  tauto

/-- Passes with the operations of a transaction are at least as many as there are operations in a
register. -/
theorem BuiltTxn.Made.opsOn_le (h : t.Made port lay txn) {passes : List SwPassTxn}
    (hpasses : ∀ tl, timesIn passes tl = txn.timesAt lay tl) (reg : ℕ × ℕ) :
    txn.opsOn lay reg ≤ passes.length := by
  obtain ⟨s, r⟩ := reg
  have hperm : ((column t.locs (s, r)).map TupleLoc.idx).Perm
      (passes.filterMap fun pass => pass.grid s r) := by
    rw [← filterMap_locPasses h.sortedReg, ← h.passes, List.perm_iff_count]
    intro idx
    rw [← timesIn_eq t.passes ⟨s, r, idx⟩, ← timesIn_eq passes ⟨s, r, idx⟩, hpasses,
      h.timesIn_eq_timesAt]
  calc txn.opsOn lay (s, r) = ((column t.locs (s, r)).map TupleLoc.idx).length := by
        rw [h.opsOn_eq, List.length_map]
    _ = (passes.filterMap fun pass => pass.grid s r).length := hperm.length_eq
    _ ≤ passes.length := List.length_filterMap_le _ _

theorem BuiltTxn.Made.length_passes (h : t.Made port lay txn) :
    t.passes.length = countPasses t.locs := by
  rw [h.passes]
  unfold locPasses
  rw [List.length_map, List.length_range]

/-- What a pass has in a register. -/
theorem BuiltTxn.Made.grid_eq (h : t.Made port lay txn) {j : ℕ} {pass : SwPassTxn}
    (hpass : t.passes[j]? = some pass) (s r : ℕ) :
    pass.grid s r = (column t.locs (s, r))[j]?.map TupleLoc.idx := by
  rw [h.passes] at hpass
  unfold locPasses at hpass
  rw [List.getElem?_map, Option.map_eq_some_iff] at hpass
  obtain ⟨i, hi, rfl⟩ := hpass
  obtain ⟨_, rfl⟩ := List.getElem?_eq_some_iff.mp hi
  rw [List.getElem_range]
  show (column t.locs (s, r))[j]?.elim none (fun tl => some tl.idx) = _
  cases (column t.locs (s, r))[j]? <;> rfl

theorem BuiltTxn.Made.exists_key (h : t.Made port lay txn) {tl : TupleLoc} (htl : tl ∈ t.locs) :
    ∃ k ∈ txn.ops, lay.lookup k = some tl :=
  List.mem_map.mp (h.perm.mem_iff.mp (List.mem_map_of_mem htl))

/-- The locations of a register are in the order of `LocLe`. -/
theorem BuiltTxn.Made.locLe_column (h : t.Made port lay txn) {j j' : ℕ} (hj : j < j')
    {a b : TupleLoc} (ha : (column t.locs reg)[j]? = some a)
    (hb : (column t.locs reg)[j']? = some b) : lay.LocLe a b := by
  have hsorted : (column t.locs reg).Pairwise lay.LocLe := h.sorted.sublist List.filter_sublist
  obtain ⟨hlt, rfl⟩ := List.getElem?_eq_some_iff.mp ha
  obtain ⟨hlt', rfl⟩ := List.getElem?_eq_some_iff.mp hb
  exact List.pairwise_iff_getElem.mp hsorted j j' hlt hlt' hj

end Made

/-- The passes of a transaction are complete, and no others are better. -/
structure BuiltTxn.Complete (lay : Layout) (txn : Txn) (t : BuiltTxn) : Prop where
  located : ∀ k ∈ txn.ops, ∃ tl, lay.lookup k = some tl
  each : ∀ tl, timesIn t.passes tl = txn.timesAt lay tl
  largest : (∀ reg, txn.opsOn lay reg ≤ t.passes.length) ∧
    ∃ s < nStages, ∃ r < regsPerStage, txn.opsOn lay (s, r) = t.passes.length
  least : ∀ passes, (∀ tl, timesIn passes tl = txn.timesAt lay tl) → t.passes.length ≤ passes.length
  heat : ∀ (j j' : ℕ) (pass pass' : SwPassTxn) (s r idx idx' : ℕ), j ≤ j' →
    t.passes[j]? = some pass → t.passes[j']? = some pass' →
    pass.grid s r = some idx → pass'.grid s r = some idx' →
      ∃ ct ct', lay.ctAt ⟨s, r, idx⟩ = some ct ∧ lay.ctAt ⟨s, r, idx'⟩ = some ct' ∧ ct' ≤ ct

theorem BuiltTxn.Made.complete {port : ℕ} {lay : Layout} {txn : Txn} {t : BuiltTxn}
    (h : t.Made port lay txn) (hlay : lay.Built keys) (hops : ∀ k ∈ txn.ops, k ∈ keys) :
    t.Complete lay txn := by
  have hlargest : ∃ s < nStages, ∃ r < regsPerStage, txn.opsOn lay (s, r) = t.passes.length := by
    simp only [h.opsOn_eq, h.length_passes]
    rcases (countPasses_spec h.sortedReg).2 with ⟨hnil, hzero⟩ | ⟨tl, htl, hlen⟩
    · refine ⟨0, by decide, 0, by decide, ?_⟩
      rw [hzero, hnil]
      rfl
    · obtain ⟨k, -, hk⟩ := h.exists_key htl
      obtain ⟨hs, hr⟩ := hlay.range k tl hk
      exact ⟨tl.stage, hs, tl.reg, hr, hlen⟩
  constructor
  case located => exact fun k hk => (hlay.lookup_iff k).mpr (hops k hk)
  case each => exact h.timesIn_eq_timesAt
  case largest => exact ⟨h.opsOn_le h.timesIn_eq_timesAt, hlargest⟩
  case least =>
    intro passes hpasses
    obtain ⟨s, -, r, -, hlen⟩ := hlargest
    rw [← hlen]
    exact h.opsOn_le hpasses (s, r)
  case heat =>
    intro j j' pass pass' s r idx idx' hj hpass hpass' hidx hidx'
    rw [h.grid_eq hpass, Option.map_eq_some_iff] at hidx
    rw [h.grid_eq hpass', Option.map_eq_some_iff] at hidx'
    obtain ⟨a, ha, rfl⟩ := hidx
    obtain ⟨b, hb, rfl⟩ := hidx'
    -- both locations are in register `(s, r)`
    have hmem : ∀ {i : ℕ} {tl : TupleLoc}, (column t.locs (s, r))[i]? = some tl →
        tl ∈ t.locs ∧ tl.register = (s, r) ∧ tl = ⟨s, r, tl.idx⟩ := by
      intro i tl htl
      obtain ⟨hin, hreg⟩ := List.mem_filter.mp (List.mem_of_getElem? htl)
      have hreg : tl.register = (s, r) := by simpa using hreg
      obtain ⟨rfl, rfl⟩ := Prod.mk.inj hreg
      exact ⟨hin, hreg, rfl⟩
    obtain ⟨hina, hrega, heqa⟩ := hmem ha
    obtain ⟨hinb, hregb, heqb⟩ := hmem hb
    rw [← heqa, ← heqb]
    rcases Nat.lt_or_eq_of_le hj with hlt | rfl
    · obtain ⟨ca, cb, hca, hcb, hle, -⟩ := (h.locLe_column hlt ha hb).2 (hrega.trans hregb.symm)
      exact ⟨ca, cb, hca, hcb, hle⟩
    · obtain ⟨k, -, hk⟩ := h.exists_key hina
      rw [ha, Option.some.injEq] at hb
      exact ⟨_, _, hlay.ctAt hk, hb ▸ hlay.ctAt hk, Nat.le_refl _⟩

/-- **The passes of a transaction.**  With the layout for a list of transactions, a transaction of
at most 100 operations on its keys gets passes with every operation's location as often as the
transaction has it.  There are as many passes as operations in the register with most of them, which
is the least possible; and in a register the counts of the keys do not go up from pass to pass. -/
theorem passes_complete {sort : List (DbKey × ℕ) → List (DbKey × ℕ)} (hsort : IsSort sort)
    (txns : List Txn) (port : ℕ) (txn : Txn) (hops : ∀ k ∈ txn.ops, k ∈ txns.flatMap Txn.ops)
    (hlen : txn.ops.length ≤ 100) :
    ∃ t, BuiltTxn.new port (Layout.new sort txns) txn = some t ∧
      t.Complete (Layout.new sort txns) txn := by
  have hlay := Layout.built_new hsort txns
  obtain ⟨t, hnew, hmade⟩ := BuiltTxn.new_spec hlay port hops hlen
  exact ⟨t, hnew, hmade.complete hlay hops⟩

/-- A sort by decreasing counts. -/
def sortCts (l : List (DbKey × ℕ)) : List (DbKey × ℕ) := l.insertionSort fun p1 p2 => p2.2 ≤ p1.2

theorem isSort_sortCts : IsSort sortCts := by
  have : Std.Total fun p1 p2 : DbKey × ℕ => p2.2 ≤ p1.2 := ⟨fun p1 p2 => Nat.le_total p2.2 p1.2⟩
  have : IsTrans (DbKey × ℕ) fun p1 p2 => p2.2 ≤ p1.2 := ⟨fun _ _ _ h h' => Nat.le_trans h' h⟩
  exact ⟨fun l => List.perm_insertionSort _ _, fun l => List.pairwise_insertionSort _ _⟩

/-- A key that is used twice needs two passes. -/
theorem passes_complete_twice :
    ∃ t, BuiltTxn.new 0 (Layout.new sortCts [⟨[7, 8, 7]⟩]) ⟨[7, 8, 7]⟩ = some t ∧
    t.Complete (Layout.new sortCts [⟨[7, 8, 7]⟩]) ⟨[7, 8, 7]⟩ :=
  passes_complete isSort_sortCts [⟨[7, 8, 7]⟩] 0 ⟨[7, 8, 7]⟩ (by simp) (by decide)

end P4db.FastLayout
