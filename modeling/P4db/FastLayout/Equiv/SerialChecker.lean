import P4db.FastLayout.Equiv.SwitchRuns
import P4db.FastLayout.SerialChecker

/-!
# What the checker finds out

* `mem_deps_iff`: the dependencies of a transaction.
* `reach_of_sublist`: a later access leads back to the earlier ones of the same value.
* `acyclic_iff`: there is no cycle exactly if the history is serializable and no transaction comes
  back to a value that it accessed last.
* `check_iff`: the checker finds that out.
* `SimSwitch.check_of_run`: in the simulated switch, only such a repetition makes it fail.
-/

namespace P4db.FastLayout

variable {h : List (ℕ × RegCell)} {cell : RegCell}

/-- There is an order of the transactions in which the earlier of two has made all its accesses to a
value before the later one. -/
def Serializable (h : List (ℕ × RegCell)) : Prop :=
  ∃ order : List ℕ, order.Nodup ∧ (∀ op ∈ h, op.1 ∈ order) ∧
    ∀ s t, [s, t].Sublist order → ∀ cell, ¬[(t, cell), (s, cell)].Sublist h

/-- A transaction accesses a value that it was the last one to access. -/
def Repeats (h : List (ℕ × RegCell)) : Prop :=
  ∃ l m r t cell, h = l ++ (t, cell) :: (m ++ (t, cell) :: r) ∧ ∀ op ∈ m, op.2 ≠ cell

/-! ### The dependencies -/

theorem recordAll_append_singleton (h : List (ℕ × RegCell)) (op : ℕ × RegCell) :
    recordAll (h ++ [op]) = recordOp (recordAll h) op := by
  unfold recordAll
  rw [List.foldl_append]
  rfl

theorem last_append_singleton (h : List (ℕ × RegCell)) (op : ℕ × RegCell) :
    (recordAll (h ++ [op])).2 = Function.update (recordAll h).2 op.2 op.1 := by
  rw [recordAll_append_singleton]
  rfl

/-- The transaction that accessed a value last. -/
theorem last_append {l m : List (ℕ × RegCell)} {t : ℕ} (hm : ∀ op ∈ m, op.2 ≠ cell) :
    (recordAll (l ++ (t, cell) :: m)).2 cell = t := by
  induction m using List.reverseRecOn with
  | nil =>
    rw [last_append_singleton]
    exact Function.update_self _ _ _
  | append_singleton m op ih =>
    have hne : op.2 ≠ cell := hm op (List.mem_append_right _ List.mem_cons_self)
    rw [← List.cons_append, ← List.append_assoc, last_append_singleton,
      Function.update_of_ne hne.symm]
    exact ih fun op hop => hm op (List.mem_append_left _ hop)

/-- A value other than 0 is from the last access. -/
theorem exists_last {v : ℕ} (hv : (recordAll h).2 cell = v) (hne : v ≠ 0) :
    ∃ l m, h = l ++ (v, cell) :: m ∧ ∀ op ∈ m, op.2 ≠ cell := by
  induction h using List.reverseRecOn with
  | nil => exact absurd hv.symm hne
  | append_singleton h op ih =>
    rw [last_append_singleton] at hv
    by_cases hcell : cell = op.2
    · rw [hcell, Function.update_self] at hv
      exact ⟨h, [], by rw [← hv, hcell], by simp⟩
    · rw [Function.update_of_ne hcell] at hv
      obtain ⟨l, m, rfl, hm⟩ := ih hv
      refine ⟨l, m ++ [op], by simp, ?_⟩
      intro op' hop'
      rcases List.mem_append.mp hop' with hop' | hop'
      · exact hm op' hop'
      · rw [List.mem_singleton.mp hop']
        exact Ne.symm hcell

/-- **The dependencies.** -/
theorem mem_deps_iff {u v : ℕ} : v ∈ (recordAll h).1.deps u ↔
    ∃ l cell r, h = l ++ (u, cell) :: r ∧ (recordAll l).2 cell = v := by
  induction h using List.reverseRecOn with
  | nil => simp [recordAll, SerialChecker.init]
  | append_singleton h op ih =>
    have hdeps : (recordAll (h ++ [op])).1.deps =
        Function.update (recordAll h).1.deps op.1
          ((recordAll h).1.deps op.1 ++ [(recordAll h).2 op.2]) := by
      rw [recordAll_append_singleton]
      rfl
    have hmem : v ∈ (recordAll (h ++ [op])).1.deps u ↔
        v ∈ (recordAll h).1.deps u ∨ u = op.1 ∧ v = (recordAll h).2 op.2 := by
      rw [hdeps]
      by_cases hu : u = op.1
      · rw [hu, Function.update_self, List.mem_append, List.mem_singleton]
        simp
      · rw [Function.update_of_ne hu]
        simp [hu]
    rw [hmem, ih]
    constructor
    · rintro (⟨l, cell, r, rfl, hv⟩ | ⟨rfl, rfl⟩)
      · exact ⟨l, cell, r ++ [op], by simp, hv⟩
      · exact ⟨h, op.2, [], rfl, rfl⟩
    · rintro ⟨l, cell, r, heq, hv⟩
      rcases List.eq_nil_or_concat r with rfl | ⟨r, op', rfl⟩
      · obtain ⟨rfl, hop⟩ := List.append_inj' heq rfl
        obtain rfl : op = (u, cell) := by simpa using hop
        exact .inr ⟨rfl, hv.symm⟩
      · rw [List.concat_eq_append, ← List.cons_append, ← List.append_assoc] at heq
        exact .inl ⟨l, cell, r, (List.append_inj' heq rfl).1, hv⟩

theorem maxTid_recordAll {op : ℕ × RegCell} (hop : op ∈ h) : op.1 ≤ (recordAll h).1.maxTid := by
  induction h using List.reverseRecOn with
  | nil => exact absurd hop List.not_mem_nil
  | append_singleton h op' ih =>
    rw [recordAll_append_singleton]
    show op.1 ≤ max (recordAll h).1.maxTid op'.1
    rcases List.mem_append.mp hop with hop | hop
    · exact Nat.le_trans (ih hop) (Nat.le_max_left _ _)
    · rw [List.mem_singleton.mp hop]
      exact Nat.le_max_right _ _

/-- A dependency is on no transaction, or on one that accessed the same value before. -/
theorem sublist_of_mem_deps {u v : ℕ} (hv : v ∈ (recordAll h).1.deps u) (hne : v ≠ 0) :
    ∃ cell, [(v, cell), (u, cell)].Sublist h := by
  obtain ⟨l, cell, r, rfl, hlast⟩ := mem_deps_iff.mp hv
  obtain ⟨l', m, rfl, -⟩ := exists_last hlast hne
  have hin : (v, cell) ∈ l' ++ (v, cell) :: m := List.mem_append_right _ List.mem_cons_self
  refine ⟨cell, ?_⟩
  show ([(v, cell)] ++ [(u, cell)]).Sublist (l' ++ (v, cell) :: m ++ (u, cell) :: r)
  exact (List.singleton_sublist.mpr hin).append (List.singleton_sublist.mpr List.mem_cons_self)

/-! ### Cycles -/

/-- `v` can be reached from `u` along dependencies. -/
def Reach (h : List (ℕ × RegCell)) : ℕ → ℕ → Prop :=
  Relation.ReflTransGen fun u v => v ∈ (recordAll h).1.deps u

theorem Reach.append {u v : ℕ} (hreach : Reach h u v) (r : List (ℕ × RegCell)) :
    Reach (h ++ r) u v := by
  refine Relation.ReflTransGen.mono ?_ u v hreach
  intro a b hb
  obtain ⟨l, cell, r', rfl, hlast⟩ := mem_deps_iff.mp hb
  exact mem_deps_iff.mpr ⟨l, cell, r' ++ r, by simp, hlast⟩

/-- The last access to a value leads back to all accesses to it. -/
theorem reach_of_mem {t : ℕ} (hin : (t, cell) ∈ h) : Reach h ((recordAll h).2 cell) t := by
  induction h using List.reverseRecOn with
  | nil => exact absurd hin List.not_mem_nil
  | append_singleton h op ih =>
    rw [last_append_singleton]
    rcases List.mem_append.mp hin with hin | hin
    · have hold := (ih hin).append [op]
      by_cases hcell : cell = op.2
      · rw [hcell, Function.update_self]
        rw [hcell] at hold
        exact Relation.ReflTransGen.head (mem_deps_iff.mpr ⟨h, op.2, [], rfl, rfl⟩) hold
      · rw [Function.update_of_ne hcell]
        exact hold
    · obtain rfl := List.mem_singleton.mp hin
      rw [Function.update_self]
      exact Relation.ReflTransGen.refl

/-- A later access leads back to the earlier ones. -/
theorem reach_of_sublist {s t : ℕ} (hsub : [(t, cell), (s, cell)].Sublist h) : Reach h s t := by
  obtain ⟨l, r, rfl, hl, hr⟩ : ∃ l r, h = l ++ r ∧ (t, cell) ∈ l ∧ (s, cell) ∈ r := by
    obtain ⟨l, r, rfl, hl, hr⟩ := List.cons_sublist_iff.mp hsub
    exact ⟨l, r, rfl, hl, List.singleton_sublist.mp hr⟩
  obtain ⟨r₁, r₂, rfl⟩ := List.append_of_mem hr
  -- the access of `s` depends on the last one before it
  have hlast : Reach (l ++ r₁) ((recordAll (l ++ r₁)).2 cell) t :=
    reach_of_mem (List.mem_append_left r₁ hl)
  have hdep : (recordAll (l ++ r₁)).2 cell ∈ (recordAll (l ++ (r₁ ++ (s, cell) :: r₂))).1.deps s :=
    mem_deps_iff.mpr ⟨l ++ r₁, cell, r₂, by simp, rfl⟩
  have happ : l ++ (r₁ ++ (s, cell) :: r₂) = l ++ r₁ ++ (s, cell) :: r₂ := by simp
  refine Relation.ReflTransGen.head hdep ?_
  rw [happ]
  exact hlast.append _

/-- A dependency of a transaction on itself. -/
theorem mem_deps_self_iff (htid : ∀ op ∈ h, 1 ≤ op.1) :
    (∃ u, u ∈ (recordAll h).1.deps u) ↔ Repeats h := by
  constructor
  · rintro ⟨u, hu⟩
    obtain ⟨l, cell, r, rfl, hlast⟩ := mem_deps_iff.mp hu
    have hpos : 1 ≤ u := htid (u, cell) (by simp)
    obtain ⟨l', m, rfl, hm⟩ := exists_last hlast (Nat.ne_of_gt hpos)
    exact ⟨l', m, r, u, cell, by simp, hm⟩
  · rintro ⟨l, m, r, t, cell, rfl, hm⟩
    exact ⟨t, mem_deps_iff.mpr ⟨l ++ (t, cell) :: m, cell, r, by simp, last_append hm⟩⟩

/-- The place of a transaction in an order; 0 comes before all of them. -/
def place (order : List ℕ) (t : ℕ) : ℕ := if t = 0 then 0 else order.idxOf t + 1

theorem idxOf_lt_of_sublist {order : List ℕ} (hnd : order.Nodup) {s t : ℕ}
    (hst : [s, t].Sublist order) : order.idxOf s < order.idxOf t := by
  have hpair : order.Pairwise fun s t => order.idxOf s < order.idxOf t := by
    rw [List.pairwise_iff_getElem]
    intro i j hi hj hij
    rw [hnd.idxOf_getElem i hi, hnd.idxOf_getElem j hj]
    exact hij
  exact List.pairwise_iff_forall_sublist.mp hpair hst

/-- In a serializable history without repetitions, the dependencies go back in the order. -/
theorem place_lt (htid : ∀ op ∈ h, 1 ≤ op.1) {order : List ℕ} (hnd : order.Nodup)
    (hmem : ∀ op ∈ h, op.1 ∈ order)
    (hord : ∀ s t, [s, t].Sublist order → ∀ cell, ¬[(t, cell), (s, cell)].Sublist h)
    (hrep : ¬Repeats h) {u v : ℕ} (hv : v ∈ (recordAll h).1.deps u) :
    place order v < place order u := by
  obtain ⟨l, c, r, heq, -⟩ := mem_deps_iff.mp hv
  have hu : (u, c) ∈ h := heq ▸ List.mem_append_right _ List.mem_cons_self
  have hupos : u ≠ 0 := Nat.ne_of_gt (htid (u, c) hu)
  unfold place
  rw [if_neg hupos]
  split_ifs with hvz
  · exact Nat.succ_pos _
  · obtain ⟨cell, hsub⟩ := sublist_of_mem_deps hv hvz
    have hne : v ≠ u := fun hvu => hrep ((mem_deps_self_iff htid).mp ⟨u, hvu ▸ hv⟩)
    have hvin : v ∈ order := hmem (v, cell) (hsub.subset List.mem_cons_self)
    have huin : u ∈ order := hmem (u, c) hu
    rcases Conflict.pair_sublist_total hvin huin hne with hvu | huv
    · exact Nat.succ_lt_succ (idxOf_lt_of_sublist hnd hvu)
    · exact absurd hsub (hord u v huv cell)

/-- **Cycles of dependencies.** -/
theorem acyclic_iff (htid : ∀ op ∈ h, 1 ≤ op.1) :
    ¬Dfs.Cyclic (recordAll h).1.deps ↔ Serializable h ∧ ¬Repeats h := by
  constructor
  · intro hac
    constructor
    · obtain ⟨order, hnd, hmem, hpair⟩ := Dfs.exists_order hac (h.map Prod.fst)
      refine ⟨order, hnd, fun op hop => (hmem op.1).mpr (List.mem_map_of_mem hop), ?_⟩
      intro s t hst cell hsub
      exact List.rel_of_pairwise_cons (hpair.sublist hst) List.mem_cons_self (reach_of_sublist hsub)
    · intro hrep
      obtain ⟨u, hu⟩ := (mem_deps_self_iff htid).mpr hrep
      exact hac ⟨u, Relation.TransGen.single hu⟩
  · rintro ⟨⟨order, hnd, hmem, hord⟩, hrep⟩ ⟨w, hw⟩
    have hlt : ∀ {a b}, Relation.TransGen (fun u v => v ∈ (recordAll h).1.deps u) a b →
        place order b < place order a := by
      intro a b hab
      induction hab with
      | single hstep => exact place_lt htid hnd hmem hord hrep hstep
      | tail _ hstep ih => exact Nat.lt_trans (place_lt htid hnd hmem hord hrep hstep) ih
    exact Nat.lt_irrefl _ (hlt hw)

/-! ### The check -/

/-- The search of the destructor, with as much fuel as there are numbers of transactions. -/
theorem check_eq_ok_iff (htid : ∀ op ∈ h, 1 ≤ op.1) {fuel : ℕ}
    (hfuel : (recordAll h).1.maxTid + 1 ≤ fuel) :
    ((∃ colors, (recordAll h).1.check fuel = .ok colors) ↔ ¬Dfs.Cyclic (recordAll h).1.deps) ∧
      (Dfs.Cyclic (recordAll h).1.deps → (recordAll h).1.check fuel = .error .cycle) := by
  have hop : ∀ {a b}, b ∈ (recordAll h).1.deps a → ∃ c, (a, c) ∈ h := by
    intro a b hb
    obtain ⟨l, c, r, rfl, -⟩ := mem_deps_iff.mp hb
    exact ⟨c, List.mem_append_right _ List.mem_cons_self⟩
  refine Dfs.walkAll_eq_ok_iff (Finset.range ((recordAll h).1.maxTid + 1)) ?_ ?_ ?_ ?_
  · intro a b hb
    rw [Finset.mem_range, Nat.lt_succ_iff]
    by_cases hz : b = 0
    · rw [hz]
      exact Nat.zero_le _
    · obtain ⟨cell, hsub⟩ := sublist_of_mem_deps hb hz
      exact maxTid_recordAll (hsub.subset List.mem_cons_self)
  · intro v hv
    have := List.mem_range'_1.mp hv
    rw [Finset.mem_range]
    omega
  · intro a ha
    obtain ⟨b, hb⟩ := List.exists_mem_of_ne_nil _ ha
    obtain ⟨c, hin⟩ := hop hb
    have hle := maxTid_recordAll hin
    have hpos := htid (a, c) hin
    exact List.mem_range'_1.mpr ⟨hpos, by omega⟩
  · rw [Finset.card_range]
    exact hfuel

/-- **The checker.**  It succeeds exactly on the serializable histories in which no transaction
comes back to a value that it accessed last, and otherwise it reports a cycle.  So it is right
exactly on the histories that are not serializable or have no such access. -/
theorem check_iff (h : List (ℕ × RegCell)) (htid : ∀ op ∈ h, 1 ≤ op.1) (fuel : ℕ)
    (hfuel : (recordAll h).1.maxTid + 1 ≤ fuel) :
    ((∃ colors, (recordAll h).1.check fuel = .ok colors) ↔ Serializable h ∧ ¬Repeats h) ∧
      (¬(Serializable h ∧ ¬Repeats h) → (recordAll h).1.check fuel = .error .cycle) ∧
      (((∃ colors, (recordAll h).1.check fuel = .ok colors) ↔ Serializable h) ↔
        (Serializable h → ¬Repeats h)) := by
  obtain ⟨hok, hcycle⟩ := check_eq_ok_iff htid hfuel
  rw [acyclic_iff htid] at hok
  refine ⟨hok, fun hno => hcycle ?_, ?_⟩
  · by_contra hac
    exact hno ((acyclic_iff htid).mp hac)
  · rw [hok]
    tauto

/-- Two transactions that take turns on two values, in the same order on both. -/
theorem check_iff_turns :
    Serializable [(1, (0, 0, 0)), (2, (0, 0, 0)), (1, (3, 1, 5)), (2, (3, 1, 5))] ∧
    ¬Repeats [(1, (0, 0, 0)), (2, (0, 0, 0)), (1, (3, 1, 5)), (2, (3, 1, 5))] :=
  (check_iff _ (by decide) 3 (by decide)).1.mp ⟨_, rfl⟩

/-- The only transaction accesses one value twice, which is as serial as can be, and the checker
reports a cycle. -/
theorem not_check_twice : Serializable [(1, (0, 0, 0)), (1, (0, 0, 0))] ∧
    ∀ fuel, 2 ≤ fuel → (recordAll [(1, (0, 0, 0)), (1, (0, 0, 0))]).1.check fuel =
      .error .cycle := by
  constructor
  · refine ⟨[1], by decide, by decide, ?_⟩
    intro s t hst
    exact absurd hst.length_le (by simp)
  · intro fuel hfuel
    refine (check_eq_ok_iff (by decide) hfuel).2 ⟨1, Relation.TransGen.single ?_⟩
    show 1 ∈ [0, 1]
    decide

/-! ### Runs of the switch -/

/-- The transaction and the value of an access. -/
def RegOp.op (o : RegOp) : ℕ × RegCell := (o.txn, o.cell)

namespace SimSwitch

/-- The checker after the accesses of a run. -/
def checker (s : SimSwitch) : SerialChecker :=
  s.history.foldl (fun c o => c.addDep o.txn o.old) SerialChecker.init

/-- Where every access has read what the registers had, the checker got what the history says. -/
theorem recordAll_of_legal {history : List RegOp}
    (h : Conflict.Legal (fun _ => 0) (history.map RegOp.access)) :
    recordAll (history.map RegOp.op) =
      (history.foldl (fun c o => c.addDep o.txn o.old) SerialChecker.init,
      Conflict.replay (fun _ => 0) (history.map RegOp.access)) := by
  induction history using List.reverseRecOn with
  | nil => rfl
  | append_singleton history o ih =>
    rw [List.map_append, Conflict.legal_append] at h
    obtain ⟨hlegal, hread, -⟩ := h
    rw [List.map_append, List.map_append, List.map_singleton, recordAll_append_singleton, ih hlegal,
      List.foldl_append, Conflict.replay_append]
    have hold : Conflict.replay (fun _ => 0) (history.map RegOp.access) o.cell = o.old := hread.symm
    unfold recordOp RegOp.op
    rw [Prod.mk.injEq]
    dsimp only
    rw [hold]
    exact ⟨rfl, rfl⟩

/-- **The checker of the simulation.**  At the end of a run it succeeds exactly if no transaction
has come back to a value that it accessed last; the lock of the pipeline takes care of everything
else. -/
theorem check_of_run {pool : ℕ → SwTxn} {calls : List Call} {s : SimSwitch}
    (hrun : Transition.run step (init pool) calls = some s) {fuel : ℕ}
    (hfuel : s.checker.maxTid + 1 ≤ fuel) :
    (∃ colors, s.checker.check fuel = .ok colors) ↔ ¬Repeats (s.history.map RegOp.op) := by
  obtain ⟨spot, a, hinv⟩ := exists_inv hrun
  have href := hinv.refines
  have hsorted := hinv.sorted
  obtain ⟨hlegal, -⟩ := href.store
  have hrec : (recordAll (s.history.map RegOp.op)).1 = s.checker := by
    rw [recordAll_of_legal hlegal]
    rfl
  have hknown : ∀ o ∈ s.history, o.txn ∈ a.order := fun o ho => hsorted.known o (href.history ▸ ho)
  -- number 0 is never given to a transaction
  have hzero : 0 ∉ a.order := hinv.locking.outside (.fresh ((href.fresh 0).mpr (.inl rfl)))
  have htid : ∀ op ∈ s.history.map RegOp.op, 1 ≤ op.1 := by
    intro op hop
    obtain ⟨o, ho, rfl⟩ := List.mem_map.mp hop
    refine Nat.pos_of_ne_zero fun heq => hzero ?_
    rw [← heq]
    exact hknown o ho
  have hser : Serializable (s.history.map RegOp.op) := by
    refine ⟨a.order, hsorted.nodup, ?_, ?_⟩
    · intro op hop
      obtain ⟨o, ho, rfl⟩ := List.mem_map.mp hop
      exact hknown o ho
    · intro t u htu cell hsub
      have hlt := idxOf_lt_of_sublist hsorted.nodup htu
      obtain ⟨ops, hops, heq⟩ := List.sublist_map_iff.mp hsub
      obtain ⟨x, ops, rfl, hx, heq⟩ := List.map_eq_cons_iff.mp heq.symm
      obtain ⟨y, ops, rfl, hy, heq⟩ := List.map_eq_cons_iff.mp heq
      obtain rfl := List.map_eq_nil_iff.mp heq
      obtain ⟨rfl, rfl⟩ := Prod.mk.inj hx
      obtain ⟨rfl, hcell⟩ := Prod.mk.inj hy
      have hne : x.txn ≠ y.txn := fun hxy => Nat.lt_irrefl _ (hxy ▸ hlt)
      have hback : [x.txn, y.txn].Sublist a.order := by
        refine hsorted.ordered x.access y.access ?_ hne ⟨hcell.symm, .inl rfl⟩
        rw [href.history]
        exact hops.map RegOp.access
      exact Nat.lt_asymm hlt (idxOf_lt_of_sublist hsorted.nodup hback)
  rw [← hrec] at hfuel ⊢
  rw [(check_eq_ok_iff htid hfuel).1, acyclic_iff htid]
  exact ⟨fun h => h.2, fun h => ⟨hser, h⟩⟩

end SimSwitch

end P4db.FastLayout
