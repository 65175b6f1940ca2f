import P4db.FastLayout.Pipeline

/-!
# The lock of the whole pipeline

A transaction that is in the pipeline and was let in is active.  While a transaction of several
passes holds the lock, no other can become active: those that were ahead of it leave, and nothing is
behind it.  So it is alone from the time it leaves its first pass to the time it enters its last
one, and then it is still the last transaction in the order. Active transactions do not overtake
each other, so the accesses in every stage are in that order as well.
-/

namespace P4db.FastLayout

/-- An access of the history; what it writes is the number of its transaction. -/
def RegOp.access (o : RegOp) : Conflict.Access ℕ RegCell ℕ := ⟨o.txn, o.cell, o.old, some o.txn⟩

theorem Accesses.stage {n i : ℕ} {t : SwTxn} {new : List RegOp} {o : RegOp} (h : Accesses n t i new)
    (ho : o ∈ new) : o.cell.1 = i ∧ t.valid = true := by
  have hvisit : o.visit ∈ t.visits i := by
    rw [← h.visit]
    exact List.mem_map_of_mem ho
  unfold SwTxn.visits at hvisit
  split_ifs at hvisit with hvalid
  · refine ⟨?_, hvalid⟩
    cases hpass : t.passes[t.passCt]? with
    | none =>
      rw [hpass] at hvisit
      exact absurd hvisit List.not_mem_nil
    | some pass =>
      rw [hpass] at hvisit
      obtain ⟨op, -, heq⟩ := List.mem_map.mp hvisit
      exact congrArg (fun v => v.2.1) heq.symm
  · exact absurd hvisit List.not_mem_nil

theorem Leaves.not_stage {t t' : SwTxn} {p : Place} (h : Leaves t t' p) (i : ℕ) : p ≠ .stage i := by
  rcases h.place with ⟨rfl, -⟩ | ⟨rfl, -⟩ <;> simp

namespace Pipeline

variable {a b : Pipeline}

/-- The transaction is in a stage, and has been let in. -/
def Active (a : Pipeline) (n i : ℕ) : Prop := a.place n = .stage i ∧ (a.txn n).valid = true

/-- No other transaction is active. -/
def Alone (a : Pipeline) (n : ℕ) : Prop := ∀ m j, a.Active m j → m = n

/-- Where the holder of the lock is: it waits for another pass, or is in one that is not its
last. -/
inductive HolderAt (a : Pipeline) (h : ℕ) : Prop
  | waiting (hplace : a.place h = .waiting) (hct : 1 ≤ (a.txn h).passCt)
      (hidle : ∀ m j, ¬a.Active m j)
  | stage {i : ℕ} (hactive : a.Active h i) (hct : (a.txn h).passCt + 1 < (a.txn h).passes.length)
      (hahead : ∀ m j, a.Active m j → i ≤ j) (halone : 1 ≤ (a.txn h).passCt → a.Alone h)

/-- The transaction has not been let in yet. -/
inductive Outside (a : Pipeline) (n : ℕ) : Prop
  | fresh (hplace : a.place n = .fresh)
  | waiting (hplace : a.place n = .waiting) (hct : (a.txn n).passCt = 0)
  | refused {i : ℕ} (hplace : a.place n = .stage i) (hvalid : (a.txn n).valid = false)

/-- What holds of the lock. -/
structure Locking (a : Pipeline) : Prop where
  unique : ∀ {n m i}, a.place n = .stage i → a.place m = .stage i → n = m
  outside : ∀ {n}, a.Outside n → n ∉ a.order
  inside : ∀ {n i}, a.Active n i → n ∈ a.order
  again : ∀ {n}, a.place n = .waiting → 1 ≤ (a.txn n).passCt → a.holder = some n
  more : ∀ {n i}, a.Active n i → (a.txn n).passCt + 1 < (a.txn n).passes.length → a.holder = some n
  valid : ∀ {n i}, a.place n = .stage i → 1 ≤ (a.txn n).passCt → (a.txn n).valid = true
  holder : ∀ {h}, a.holder = some h → a.HolderAt h
  last : ∀ {h}, a.holder = some h → a.order.getLast? = some h

/-- Where the transactions are in the order: behind whatever has been accessed in the stages that
they have not gone through, and behind those that are ahead of them. -/
structure Sorted (a : Pipeline) : Prop where
  nodup : a.order.Nodup
  known : ∀ o ∈ a.history, o.txn ∈ a.order
  behind : ∀ {n i}, a.Active n i → ∀ o ∈ a.history, i ≤ o.cell.1 →
    o.txn = n ∨ [o.txn, n].Sublist a.order
  ahead : ∀ {n m i j}, a.Active n i → a.Active m j → i < j → [m, n].Sublist a.order
  ordered : Conflict.Ordered (a.history.map RegOp.access) a.order

/-! ### One transaction changes -/

/-- Only transaction `n` changes: its place and its data. -/
structure Changes (a b : Pipeline) (n : ℕ) (p : Place) (t : SwTxn) : Prop where
  place : b.place = Function.update a.place n p
  txn : b.txn = Function.update a.txn n t

namespace Changes

variable {n m : ℕ} {p : Place} {t : SwTxn}

theorem place_self (h : Changes a b n p t) : b.place n = p := by rw [h.place, Function.update_self]

theorem txn_self (h : Changes a b n p t) : b.txn n = t := by rw [h.txn, Function.update_self]

theorem place_of_ne (h : Changes a b n p t) (hm : m ≠ n) : b.place m = a.place m := by
  rw [h.place, Function.update_of_ne hm]

theorem txn_of_ne (h : Changes a b n p t) (hm : m ≠ n) : b.txn m = a.txn m := by
  rw [h.txn, Function.update_of_ne hm]

theorem active_self (h : Changes a b n p t) {j : ℕ} :
    b.Active n j ↔ p = .stage j ∧ t.valid = true := by
  unfold Active
  rw [h.place_self, h.txn_self]

theorem active_of_ne (h : Changes a b n p t) (hm : m ≠ n) {j : ℕ} :
    b.Active m j ↔ a.Active m j := by
  unfold Active
  rw [h.place_of_ne hm, h.txn_of_ne hm]

theorem outside_of_ne (h : Changes a b n p t) (hm : m ≠ n) (hout : b.Outside m) : a.Outside m := by
  cases hout with
  | fresh hplace => exact .fresh (by rwa [h.place_of_ne hm] at hplace)
  | waiting hplace hct =>
    rw [h.place_of_ne hm] at hplace
    rw [h.txn_of_ne hm] at hct
    exact .waiting hplace hct
  | refused hplace hvalid =>
    rw [h.place_of_ne hm] at hplace
    rw [h.txn_of_ne hm] at hvalid
    exact .refused hplace hvalid

/-- Another transaction holds the lock; the one that changes does not become active, or was so
before. -/
theorem holderAt_of_ne (h : Changes a b n p t) (hm : m ≠ n)
    (hactive : ∀ j, b.Active n j → ∃ i ≤ j, a.Active n i) (hat : a.HolderAt m) : b.HolderAt m := by
  -- an active transaction was active before, in the same stage or in one before it
  have hback : ∀ k j, b.Active k j → ∃ i ≤ j, a.Active k i := by
    intro k j hk
    by_cases hkn : k = n
    · subst hkn
      exact hactive j hk
    · exact ⟨j, Nat.le_refl j, (h.active_of_ne hkn).mp hk⟩
  cases hat with
  | waiting hplace hct hidle =>
    rw [← h.place_of_ne hm] at hplace
    rw [← h.txn_of_ne hm] at hct
    refine .waiting hplace hct fun k j hk => ?_
    obtain ⟨i, -, hi⟩ := hback k j hk
    exact hidle k i hi
  | @stage i hact hct hahead halone =>
    have hact' := (h.active_of_ne hm).mpr hact
    rw [← h.txn_of_ne hm] at hct halone
    refine .stage hact' hct (fun k j hk => ?_) fun hone k j hk => ?_
    · obtain ⟨i', hle, hi'⟩ := hback k j hk
      exact Nat.le_trans (hahead k i' hi') hle
    · obtain ⟨i', -, hi'⟩ := hback k j hk
      exact halone hone k i' hi'

end Changes

/-- What has to be shown of the transaction that changes; the others keep what they had. -/
theorem Locking.change {n : ℕ} {p : Place} {t : SwTxn} (h : a.Locking) (hc : Changes a b n p t)
    (horder : ∀ m, m ≠ n → (m ∈ b.order ↔ m ∈ a.order))
    (hholder : ∀ m, m ≠ n → a.holder = some m → b.holder = some m)
    (hfree : ∀ i m, p = .stage i → m ≠ n → a.place m ≠ .stage i)
    (houtside : b.Outside n → n ∉ b.order)
    (hinside : t.valid = true → (∃ i, p = .stage i) → n ∈ b.order)
    (hagain : p = .waiting → 1 ≤ t.passCt → b.holder = some n)
    (hmore : t.valid = true → (∃ i, p = .stage i) → t.passCt + 1 < t.passes.length →
      b.holder = some n)
    (hvalid : (∃ i, p = .stage i) → 1 ≤ t.passCt → t.valid = true)
    (hholderAt : ∀ m, b.holder = some m → b.HolderAt m)
    (hlast : ∀ m, b.holder = some m → b.order.getLast? = some m) : b.Locking := by
  constructor
  case unique =>
    intro k m i hk hm
    by_cases hkn : k = n
    · by_cases hmn : m = n
      · rw [hkn, hmn]
      · subst hkn
        rw [hc.place_self] at hk
        rw [hc.place_of_ne hmn] at hm
        exact absurd hm (hfree i m hk hmn)
    · rw [hc.place_of_ne hkn] at hk
      by_cases hmn : m = n
      · subst hmn
        rw [hc.place_self] at hm
        exact absurd hk (hfree i k hm hkn)
      · rw [hc.place_of_ne hmn] at hm
        exact h.unique hk hm
  case outside =>
    intro m hm
    by_cases hmn : m = n
    · subst hmn
      exact houtside hm
    · rw [horder m hmn]
      exact h.outside (hc.outside_of_ne hmn hm)
  case inside =>
    intro m i hm
    by_cases hmn : m = n
    · subst hmn
      obtain ⟨hp, ht⟩ := hc.active_self.mp hm
      exact hinside ht ⟨i, hp⟩
    · rw [horder m hmn]
      exact h.inside ((hc.active_of_ne hmn).mp hm)
  case again =>
    intro m hm hct
    by_cases hmn : m = n
    · subst hmn
      rw [hc.place_self] at hm
      rw [hc.txn_self] at hct
      exact hagain hm hct
    · rw [hc.place_of_ne hmn] at hm
      rw [hc.txn_of_ne hmn] at hct
      exact hholder m hmn (h.again hm hct)
  case more =>
    intro m i hm hct
    by_cases hmn : m = n
    · subst hmn
      obtain ⟨hp, ht⟩ := hc.active_self.mp hm
      rw [hc.txn_self] at hct
      exact hmore ht ⟨i, hp⟩ hct
    · rw [hc.txn_of_ne hmn] at hct
      exact hholder m hmn (h.more ((hc.active_of_ne hmn).mp hm) hct)
  case valid =>
    intro m i hm hct
    by_cases hmn : m = n
    · subst hmn
      rw [hc.place_self] at hm
      rw [hc.txn_self] at hct ⊢
      exact hvalid ⟨i, hm⟩ hct
    · rw [hc.place_of_ne hmn] at hm
      rw [hc.txn_of_ne hmn] at hct ⊢
      exact h.valid hm hct
  case holder => exact fun hm => hholderAt _ hm
  case last => exact fun hm => hlast _ hm

/-- The transaction changes without entering the pipeline: the lock and the order stay. -/
theorem Locking.stay {n : ℕ} {p : Place} {t : SwTxn} (h : a.Locking) (hc : Changes a b n p t)
    (hb : b.holder = a.holder ∧ b.order = a.order)
    (hfree : ∀ i m, p = .stage i → m ≠ n → a.place m ≠ .stage i)
    (houtside : b.Outside n → a.Outside n)
    (hagain : p = .waiting → 1 ≤ t.passCt → a.holder = some n)
    (hback : ∀ j, b.Active n j → ∃ i ≤ j, a.Active n i ∧ t = a.txn n)
    (hvalid : (∃ i, p = .stage i) → 1 ≤ t.passCt → t.valid = true)
    (hholderAt : a.HolderAt n → a.holder = some n → b.HolderAt n) : b.Locking := by
  obtain ⟨hholder, horder⟩ := hb
  apply h.change hc
  case horder =>
    intro m _
    rw [horder]
  case hholder =>
    intro m _ hm
    rw [hholder, hm]
  case hfree => exact hfree
  case houtside =>
    intro hout
    rw [horder]
    exact h.outside (houtside hout)
  case hinside =>
    rintro ht ⟨j, hp⟩
    obtain ⟨i, -, hi, -⟩ := hback j (hc.active_self.mpr ⟨hp, ht⟩)
    rw [horder]
    exact h.inside hi
  case hagain =>
    intro hp hct
    rw [hholder]
    exact hagain hp hct
  case hmore =>
    rintro ht ⟨j, hp⟩ hct
    obtain ⟨i, -, hi, rfl⟩ := hback j (hc.active_self.mpr ⟨hp, ht⟩)
    rw [hholder]
    exact h.more hi hct
  case hvalid => exact hvalid
  case hholderAt =>
    intro m hm
    rw [hholder] at hm
    by_cases hmn : m = n
    · subst hmn
      exact hholderAt (h.holder hm) hm
    · apply hc.holderAt_of_ne hmn _ (h.holder hm)
      intro j hj
      obtain ⟨i, hle, hi, -⟩ := hback j hj
      exact ⟨i, hle, hi⟩
  case hlast =>
    intro m hm
    rw [hholder] at hm
    rw [horder]
    exact h.last hm

/-! ### The lock along every move -/

theorem Locking.advance {n i : ℕ} {new : List RegOp} (h : a.Locking) (hplace : a.place n = .stage i)
    (hfree : ∀ m, a.place m ≠ .stage (i + 1)) :
    Locking { a with
      place := Function.update a.place n (.stage (i + 1)), history := a.history ++ new } := by
  set b : Pipeline := { a with
    place := Function.update a.place n (.stage (i + 1))
    history := a.history ++ new } with hb
  have hc : Changes a b n (.stage (i + 1)) (a.txn n) :=
    ⟨rfl, (Function.update_eq_self n a.txn).symm⟩
  have hback : ∀ j, b.Active n j → a.Active n i ∧ j = i + 1 := by
    intro j hj
    obtain ⟨hstage, hvalid⟩ := hc.active_self.mp hj
    exact ⟨⟨hplace, hvalid⟩, (Place.stage.inj hstage).symm⟩
  apply h.stay hc ⟨rfl, rfl⟩
  case hfree =>
    intro j m hj _
    rw [← hj]
    exact hfree m
  case houtside =>
    intro hout
    cases hout with
    | fresh hp => exact absurd (hc.place_self.symm.trans hp) (by simp)
    | waiting hp _ => exact absurd (hc.place_self.symm.trans hp) (by simp)
    | refused _ hvalid => exact .refused hplace hvalid
  case hagain =>
    intro hp
    exact absurd hp (by simp)
  case hback =>
    intro j hj
    obtain ⟨hi, rfl⟩ := hback j hj
    exact ⟨i, Nat.le_succ i, hi, rfl⟩
  case hvalid =>
    intro _ hct
    exact h.valid hplace hct
  case hholderAt =>
    intro hat _
    cases hat with
    | waiting hp _ _ => exact absurd (hplace.symm.trans hp) (by simp)
    | @stage i' hactive hct hahead halone =>
      have hi' : i = i' := Place.stage.inj (hplace.symm.trans hactive.1)
      subst hi'
      refine .stage (hc.active_self.mpr ⟨rfl, hactive.2⟩) hct
        (fun m j hm => ?_) fun hone m j hm => ?_
      · by_cases hmn : m = n
        · subst hmn
          exact Nat.le_of_eq (hback j hm).2.symm
        · -- nobody else is in the stage that the holder has left
          have hma := (hc.active_of_ne hmn).mp hm
          have hle := hahead m j hma
          have hne : j ≠ i := fun heq => hmn (h.unique (heq ▸ hma.1) hplace)
          omega
      · by_cases hmn : m = n
        · exact hmn
        · exact halone hone m j ((hc.active_of_ne hmn).mp hm)

/-- One that was refused has not completed a pass. -/
theorem Locking.passCt_of_refused {n i : ℕ} {t : SwTxn} {p : Place} (h : a.Locking)
    (hplace : a.place n = .stage i) (hleaves : Leaves (a.txn n) t p)
    (hv : (a.txn n).valid = false) : t.passCt = 0 := by
  rw [hleaves.passCt, if_neg (by rw [hv]; exact Bool.false_ne_true)]
  by_contra hne
  have htrue := h.valid hplace (Nat.pos_of_ne_zero hne)
  rw [hv] at htrue
  exact Bool.false_ne_true htrue

theorem Work.stage_lt {n i : ℕ} (h : a.Work) (hplace : a.place n = .stage i) :
    i < nStages ∧ (a.txn n).passCt < (a.txn n).passes.length := by
  have hn := h n
  rw [hplace] at hn
  exact ⟨hn.1, hn.2.1⟩

/-- The holder of the lock leaves the last stage, as the last one that was active. -/
theorem HolderAt.leave {n : ℕ} {t : SwTxn} {p : Place} (hat : a.HolderAt n) (h : a.Locking)
    (hwork : a.Work) (hplace : a.place n = .stage (nStages - 1)) (hleaves : Leaves (a.txn n) t p)
    (hc : Changes a b n p t) : b.HolderAt n := by
  cases hat with
  | waiting hp _ _ => exact absurd (hplace.symm.trans hp) (by simp)
  | @stage i hactive hct hahead _ =>
    obtain rfl : nStages - 1 = i := Place.stage.inj (hplace.symm.trans hactive.1)
    have hct' : t.passCt = (a.txn n).passCt + 1 := by rw [hleaves.passCt, if_pos hactive.2]
    have hp : p = .waiting := by
      rcases hleaves.place with ⟨hp, -⟩ | ⟨-, hend⟩
      · exact hp
      · rw [hct', hleaves.passes] at hend
        omega
    refine .waiting (hc.place_self.trans hp) ?_ fun m j hm => ?_
    · rw [hc.txn_self, hct']
      omega
    · by_cases hmn : m = n
      · subst hmn
        exact hleaves.not_stage j (hc.active_self.mp hm).1
      · -- those ahead of the holder have left, and it was in the last stage
        have hma := (hc.active_of_ne hmn).mp hm
        have hj := (hwork.stage_lt hma.1).1
        have hle := hahead m j hma
        obtain rfl : j = nStages - 1 := by omega
        exact hmn (h.unique hma.1 hplace)

theorem Locking.leave {n : ℕ} {new : List RegOp} {t : SwTxn} {p : Place} (h : a.Locking)
    (hwork : a.Work) (hplace : a.place n = .stage (nStages - 1)) (hleaves : Leaves (a.txn n) t p) :
    Locking { a with
      place := Function.update a.place n p
      txn := Function.update a.txn n t
      history := a.history ++ new } := by
  set b : Pipeline := { a with
    place := Function.update a.place n p
    txn := Function.update a.txn n t
    history := a.history ++ new } with hb
  have hc : Changes a b n p t := ⟨rfl, rfl⟩
  have hlt := (hwork.stage_lt hplace).2
  apply h.stay hc ⟨rfl, rfl⟩
  case hfree => exact fun i m hp _ => absurd hp (hleaves.not_stage i)
  case houtside =>
    intro hout
    cases hv : (a.txn n).valid with
    | false => exact .refused hplace hv
    | true =>
      exfalso
      cases hout with
      | fresh hp =>
        rw [hc.place_self] at hp
        rcases hleaves.place with ⟨rfl, -⟩ | ⟨rfl, -⟩ <;> exact absurd hp (by simp)
      | waiting _ hct =>
        rw [hc.txn_self, hleaves.passCt, if_pos hv] at hct
        omega
      | refused hp _ => exact hleaves.not_stage _ (hc.place_self.symm.trans hp)
  case hagain =>
    intro hp hct
    cases hv : (a.txn n).valid with
    | false => exact absurd (h.passCt_of_refused hplace hleaves hv) (by omega)
    | true =>
      apply h.more ⟨hplace, hv⟩
      have hne : t.passCt ≠ t.passes.length := by
        rcases hleaves.place with ⟨-, hne⟩ | ⟨rfl, -⟩
        · exact hne
        · exact absurd hp (by simp)
      rw [hleaves.passes, hleaves.passCt, if_pos hv] at hne
      omega
  case hback => exact fun j hj => absurd (hc.active_self.mp hj).1 (hleaves.not_stage j)
  case hvalid =>
    rintro ⟨i, hp⟩
    exact absurd hp (hleaves.not_stage i)
  case hholderAt => exact fun hat _ => hat.leave h hwork hplace hleaves hc

theorem Locking.flow (h : a.Locking) (hwork : a.Work) (hf : Flow a b) : b.Locking := by
  cases hf with
  | advance hplace _ hfree _ => exact h.advance hplace hfree
  | leave hplace _ hleaves => exact h.leave hwork hplace hleaves

theorem changes_intoStage (a : Pipeline) (n : ℕ) (valid : Bool) (holder : Option ℕ) :
    Changes a (a.intoStage n valid holder) n (.stage 0) { a.txn n with valid := valid } :=
  ⟨rfl, rfl⟩

theorem not_outside_intoStage (a : Pipeline) (n : ℕ) (holder : Option ℕ) :
    ¬(a.intoStage n true holder).Outside n := by
  have hc := changes_intoStage a n true holder
  intro hout
  cases hout with
  | fresh hp => exact absurd (hc.place_self.symm.trans hp) (by simp)
  | waiting hp _ => exact absurd (hc.place_self.symm.trans hp) (by simp)
  | refused _ hv =>
    rw [hc.txn_self] at hv
    exact Bool.false_ne_true hv.symm

theorem letIn_of_not_mem {order : List ℕ} {n : ℕ} (h : n ∉ order) : letIn order n = order ++ [n] :=
  if_neg h

theorem letIn_of_mem {order : List ℕ} {n : ℕ} (h : n ∈ order) : letIn order n = order := if_pos h

theorem mem_letIn {order : List ℕ} {n m : ℕ} : m ∈ letIn order n ↔ m ∈ order ∨ m = n := by
  by_cases h : n ∈ order
  · rw [letIn_of_mem h]
    exact ⟨.inl, fun hm => hm.elim id fun heq => heq ▸ h⟩
  · rw [letIn_of_not_mem h, List.mem_append, List.mem_singleton]

theorem sublist_letIn (order : List ℕ) (n : ℕ) : order.Sublist (letIn order n) := by
  by_cases h : n ∈ order
  · rw [letIn_of_mem h]
  · rw [letIn_of_not_mem h]
    exact List.sublist_append_left _ _

theorem nodup_letIn {order : List ℕ} {n : ℕ} (h : order.Nodup) : (letIn order n).Nodup := by
  by_cases hn : n ∈ order
  · rwa [letIn_of_mem hn]
  · rw [letIn_of_not_mem hn, ← List.concat_eq_append]
    exact h.concat hn

/-- While nobody holds the lock, those that wait have not begun. -/
theorem Locking.passCt_of_free {n : ℕ} (h : a.Locking) (hplace : a.place n = .waiting)
    (hholder : a.holder = none) : (a.txn n).passCt = 0 := by
  by_contra hne
  have hn := h.again hplace (Nat.pos_of_ne_zero hne)
  rw [hholder] at hn
  exact absurd hn (by simp)

/-- The holder of the lock, when it waits. -/
theorem Locking.holder_waiting {n : ℕ} (h : a.Locking) (hplace : a.place n = .waiting)
    (hholder : a.holder = some n) :
    1 ≤ (a.txn n).passCt ∧ (∀ m j, ¬a.Active m j) ∧ n ∈ a.order := by
  cases h.holder hholder with
  | waiting _ hct hidle => exact ⟨hct, hidle, List.mem_of_getLast? (h.last hholder)⟩
  | stage hactive _ _ _ => exact absurd (hplace.symm.trans hactive.1) (by simp)

/-- If no other transaction holds the lock, one that is let in has none behind it in the order. -/
theorem Locking.getLast_letIn {n : ℕ} (h : a.Locking) (hplace : a.place n = .waiting)
    (hmine : ∀ m, a.holder = some m → m = n) : (letIn a.order n).getLast? = some n := by
  cases hholder : a.holder with
  | none =>
    have hct := h.passCt_of_free hplace hholder
    rw [letIn_of_not_mem (h.outside (.waiting hplace hct))]
    exact List.getLast?_concat
  | some m =>
    obtain rfl := hmine m hholder
    rw [letIn_of_mem (h.holder_waiting hplace hholder).2.2]
    exact h.last hholder

/-- A transaction is let in, and has the lock then if this is not its last pass. -/
theorem Locking.letIn {n : ℕ} {holder : Option ℕ} (h : a.Locking) (hplace : a.place n = .waiting)
    (hfree : ∀ m, a.place m ≠ .stage 0) (hmine : ∀ m, a.holder = some m → m = n)
    (hself : ∀ m, holder = some m → m = n ∧ (a.txn n).passCt + 1 < (a.txn n).passes.length)
    (hmore : (a.txn n).passCt + 1 < (a.txn n).passes.length → holder = some n) :
    (a.intoStage n true holder).Locking := by
  set b := a.intoStage n true holder with hb
  have hc : Changes a b n (.stage 0) { a.txn n with valid := true } := changes_intoStage ..
  have horder : b.order = Pipeline.letIn a.order n := rfl
  have hlast := h.getLast_letIn hplace hmine
  apply h.change hc
  case horder =>
    intro m hmn
    rw [horder, mem_letIn, or_iff_left hmn]
  case hholder => exact fun m hmn hm => absurd (hmine m hm) hmn
  case hfree =>
    intro i m hi _
    rw [← hi]
    exact hfree m
  case houtside => exact fun hout => absurd hout (not_outside_intoStage a n _)
  case hinside => exact fun _ _ => mem_letIn.mpr (.inr rfl)
  case hagain => exact fun hp => absurd hp (by simp)
  case hmore => exact fun _ _ hlen => hmore hlen
  case hvalid => exact fun _ _ => rfl
  case hholderAt =>
    intro m hm
    obtain ⟨rfl, hlen⟩ := hself m hm
    refine .stage (hc.active_self.mpr ⟨rfl, rfl⟩) ?_ (fun _ _ _ => Nat.zero_le _)
      fun hone k j hk => ?_
    · rw [hc.txn_self]
      exact hlen
    · rw [hc.txn_self] at hone
      -- it has come back, so nothing was active
      obtain ⟨-, hidle, -⟩ := h.holder_waiting hplace (h.again hplace hone)
      by_contra hkm
      exact hidle k j ((hc.active_of_ne hkm).mp hk)
  case hlast =>
    intro m hm
    rw [horder, (hself m hm).1]
    exact hlast

theorem Locking.refuse {n k : ℕ} (h : a.Locking) (hplace : a.place n = .waiting)
    (hfree : ∀ m, a.place m ≠ .stage 0) (hholder : a.holder = some k) (hne : k ≠ n) :
    (a.intoStage n false (some k)).Locking := by
  set b := a.intoStage n false (some k) with hb
  have hc : Changes a b n (.stage 0) { a.txn n with valid := false } := changes_intoStage ..
  have hnot : a.holder ≠ some n := by
    rw [hholder]
    exact fun heq => hne (Option.some.inj heq)
  have hct : (a.txn n).passCt = 0 := by
    by_contra hct
    exact hnot (h.again hplace (Nat.pos_of_ne_zero hct))
  apply h.stay hc ⟨hholder.symm, rfl⟩
  case hfree =>
    intro i m hi _
    rw [← hi]
    exact hfree m
  case houtside => exact fun _ => .waiting hplace hct
  case hagain => exact fun hp => absurd hp (by simp)
  case hback => exact fun j hj => absurd (hc.active_self.mp hj).2 Bool.false_ne_true
  case hvalid =>
    intro _ hone
    change 1 ≤ (a.txn n).passCt at hone
    omega
  case hholderAt => exact fun _ hn => absurd hn hnot

theorem Locking.move (h : a.Locking) (hwork : a.Work) (hm : Move a b) : b.Locking := by
  cases hm with
  | flow hf => exact h.flow hwork hf
  | @accept n t hplace hct hpasses =>
    have hc : Changes a { a with
        place := Function.update a.place n .waiting, txn := Function.update a.txn n t } n
        .waiting t := ⟨rfl, rfl⟩
    apply h.stay hc ⟨rfl, rfl⟩
    case hfree => exact fun i m hp => absurd hp (by simp)
    case houtside => exact fun _ => .fresh hplace
    case hagain => exact fun _ hone => absurd hct (by omega)
    case hback => exact fun j hj => absurd (hc.place_self.symm.trans hj.1) (by simp)
    case hvalid =>
      rintro ⟨i, hp⟩
      exact absurd hp (by simp)
    case hholderAt =>
      intro hat
      cases hat with
      | waiting hp _ _ => exact absurd (hplace.symm.trans hp) (by simp)
      | stage hactive _ _ _ => exact absurd (hplace.symm.trans hactive.1) (by simp)
  | @enter n hplace hfree hholder =>
    have hct := h.passCt_of_free hplace hholder
    apply h.letIn hplace hfree
    case hmine =>
      intro m hm
      rw [hholder] at hm
      exact absurd hm (by simp)
    case hself =>
      intro m hm
      split_ifs at hm with htwo
      exact ⟨(Option.some.inj hm).symm, by omega⟩
    case hmore => exact fun hlen => if_pos (by omega)
  | @reenter n hplace hfree hholder =>
    have hlt : (a.txn n).passCt < (a.txn n).passes.length := by
      have hn := hwork n
      rw [hplace] at hn
      exact hn.1
    apply h.letIn hplace hfree
    case hmine =>
      intro m hm
      rw [hholder] at hm
      exact (Option.some.inj hm).symm
    case hself =>
      intro m hm
      split_ifs at hm with hlen
      exact ⟨(Option.some.inj hm).symm, by omega⟩
    case hmore => exact fun hlen => if_neg (by omega)
  | refuse hplace hfree hholder hne => exact h.refuse hplace hfree hholder hne
  | @finish n hplace =>
    have hc : Changes a { a with place := Function.update a.place n .done } n .done (a.txn n) :=
      ⟨rfl, (Function.update_eq_self n a.txn).symm⟩
    apply h.stay hc ⟨rfl, rfl⟩
    case hfree => exact fun i m hp => absurd hp (by simp)
    case houtside =>
      intro hout
      cases hout with
      | fresh hp => exact absurd (hc.place_self.symm.trans hp) (by simp)
      | waiting hp _ => exact absurd (hc.place_self.symm.trans hp) (by simp)
      | refused hp _ => exact absurd (hc.place_self.symm.trans hp) (by simp)
    case hagain => exact fun hp => absurd hp (by simp)
    case hback => exact fun j hj => absurd (hc.place_self.symm.trans hj.1) (by simp)
    case hvalid =>
      rintro ⟨i, hp⟩
      exact absurd hp (by simp)
    case hholderAt =>
      intro hat
      cases hat with
      | waiting hp _ _ => exact absurd (hplace.symm.trans hp) (by simp)
      | stage hactive _ _ _ => exact absurd (hplace.symm.trans hactive.1) (by simp)

/-! ### The order along every move -/

/-- What a step in the pipeline does: one transaction makes its accesses in a stage, and is in the
next one then or in none. -/
theorem Flow.summary (h : Flow a b) : ∃ n i new, a.place n = .stage i ∧ Accesses n (a.txn n) i new ∧
    b.history = a.history ++ new ∧ b.order = a.order ∧
    ∀ m j, b.Active m j → m ≠ n ∧ a.Active m j ∨ m = n ∧ a.Active n i ∧ j = i + 1 := by
  cases h with
  | @advance n i new hplace hi hfree hnew =>
    refine ⟨n, i, new, hplace, hnew, rfl, rfl, fun m j hm => ?_⟩
    have hc : Changes a { a with
        place := Function.update a.place n (.stage (i + 1))
        history := a.history ++ new } n (.stage (i + 1)) (a.txn n) :=
      ⟨rfl, (Function.update_eq_self n a.txn).symm⟩
    by_cases hmn : m = n
    · subst hmn
      obtain ⟨hj, hvalid⟩ := hc.active_self.mp hm
      exact .inr ⟨rfl, ⟨hplace, hvalid⟩, (Place.stage.inj hj).symm⟩
    · exact .inl ⟨hmn, (hc.active_of_ne hmn).mp hm⟩
  | @leave n new t p hplace hnew hleaves =>
    refine ⟨n, nStages - 1, new, hplace, hnew, rfl, rfl, fun m j hm => ?_⟩
    have hc : Changes a { a with
        place := Function.update a.place n p
        txn := Function.update a.txn n t
        history := a.history ++ new } n p t := ⟨rfl, rfl⟩
    by_cases hmn : m = n
    · subst hmn
      exact absurd (hc.active_self.mp hm).1 (hleaves.not_stage j)
    · exact .inl ⟨hmn, (hc.active_of_ne hmn).mp hm⟩

theorem Sorted.flow (h : a.Sorted) (hlock : a.Locking) (hf : Flow a b) : b.Sorted := by
  obtain ⟨n, i, new, hplace, hnew, hhistory, horder, hactive⟩ := hf.summary
  -- an access is made by an active transaction
  have hact : ∀ o ∈ new, o.cell.1 = i ∧ a.Active n i := by
    intro o ho
    obtain ⟨hi, hvalid⟩ := hnew.stage ho
    exact ⟨hi, hplace, hvalid⟩
  have hne : ∀ m j, m ≠ n → a.Active m j → j ≠ i := by
    rintro m j hmn hm rfl
    exact hmn (hlock.unique hm.1 hplace)
  constructor
  case nodup =>
    rw [horder]
    exact h.nodup
  case known =>
    intro o ho
    rw [hhistory] at ho
    rw [horder]
    rcases List.mem_append.mp ho with ho | ho
    · exact h.known o ho
    · rw [hnew.txn o ho]
      exact hlock.inside (hact o ho).2
  case behind =>
    intro m j hm o ho hj
    rw [hhistory] at ho
    rw [horder]
    rcases hactive m j hm with ⟨hmn, hma⟩ | ⟨rfl, hma, rfl⟩
    · rcases List.mem_append.mp ho with ho | ho
      · exact h.behind hma o ho hj
      · -- the transaction that makes the access is ahead
        obtain ⟨hi, hna⟩ := hact o ho
        have := hne m j hmn hma
        rw [hnew.txn o ho]
        exact .inr (h.ahead hma hna (by omega))
    · rcases List.mem_append.mp ho with ho | ho
      · exact h.behind hma o ho (by omega)
      · exact .inl (hnew.txn o ho)
  case ahead =>
    intro m k j l hm hk hjl
    rw [horder]
    rcases hactive m j hm with ⟨hmn, hma⟩ | ⟨rfl, hma, rfl⟩
    · rcases hactive k l hk with ⟨hkn, hka⟩ | ⟨rfl, hka, rfl⟩
      · exact h.ahead hma hka hjl
      · have := hne m j hmn hma
        exact h.ahead hma hka (by omega)
    · rcases hactive k l hk with ⟨hkn, hka⟩ | ⟨rfl, hka, rfl⟩
      · exact h.ahead hma hka (by omega)
      · omega
  case ordered =>
    rw [hhistory, horder, List.map_append]
    apply h.ordered.append (List.Sublist.refl _)
    · intro x hx y hy
      obtain ⟨o, ho, rfl⟩ := List.mem_map.mp hx
      obtain ⟨o', ho', rfl⟩ := List.mem_map.mp hy
      exact (hnew.txn o ho).trans (hnew.txn o' ho').symm
    · intro x hx y hy hxy hconf
      obtain ⟨o, ho, rfl⟩ := List.mem_map.mp hx
      obtain ⟨o', ho', rfl⟩ := List.mem_map.mp hy
      obtain ⟨hi, hna⟩ := hact o' ho'
      have hcell : o.cell = o'.cell := hconf.1
      have htxn : o'.txn = n := hnew.txn o' ho'
      show [o.txn, o'.txn].Sublist a.order
      rw [htxn]
      apply (h.behind hna o ho (by rw [hcell, hi])).resolve_left
      intro heq
      exact hxy (heq.trans htxn.symm)

/-- One transaction changes without accesses: if it is active then, it is in the first stage and
last in the order. -/
theorem Sorted.change {n : ℕ} {p : Place} {t : SwTxn} (h : a.Sorted) (hlock : a.Locking)
    (hc : Changes a b n p t) (hhistory : b.history = a.history) (hnodup : b.order.Nodup)
    (hsub : a.order.Sublist b.order)
    (hn : ∀ i, p = .stage i → t.valid = true → i = 0 ∧ ∀ k ∈ a.order, k ≠ n →
      [k, n].Sublist b.order) :
    b.Sorted := by
  have hactive : ∀ m j, b.Active m j → a.Active m j ∨ j = 0 ∧ ∀ k ∈ a.order, k ≠ m →
      [k, m].Sublist b.order := by
    intro m j hm
    by_cases hmn : m = n
    · subst hmn
      obtain ⟨hp, ht⟩ := hc.active_self.mp hm
      exact .inr (hn j hp ht)
    · exact .inl ((hc.active_of_ne hmn).mp hm)
  constructor
  case nodup => exact hnodup
  case known =>
    intro o ho
    rw [hhistory] at ho
    exact hsub.subset (h.known o ho)
  case behind =>
    intro m j hm o ho hj
    rw [hhistory] at ho
    rcases hactive m j hm with hma | ⟨-, hlast⟩
    · exact (h.behind hma o ho hj).imp_right fun hs => hs.trans hsub
    · by_cases heq : o.txn = m
      · exact .inl heq
      · exact .inr (hlast o.txn (h.known o ho) heq)
  case ahead =>
    intro m k j l hm hk hjl
    rcases hactive k l hk with hka | ⟨rfl, -⟩
    · rcases hactive m j hm with hma | ⟨-, hlast⟩
      · exact (h.ahead hma hka hjl).trans hsub
      · apply hlast k (hlock.inside hka)
        rintro rfl
        have hjl' := Place.stage.inj (hm.1.symm.trans hk.1)
        omega
    · omega
  case ordered =>
    rw [hhistory]
    exact fun x y hxy hne hconf => (h.ordered x y hxy hne hconf).trans hsub

theorem pair_sublist_getLast {l : List ℕ} {k n : ℕ} (hk : k ∈ l) (hn : l.getLast? = some n)
    (hne : k ≠ n) : [k, n].Sublist l := by
  obtain ⟨l', rfl⟩ := List.getLast?_eq_some_iff.mp hn
  have hk' : k ∈ l' := by
    rcases List.mem_append.mp hk with hk | hk
    · exact hk
    · exact absurd (List.mem_singleton.mp hk) hne
  exact (List.singleton_sublist.mpr hk').append (List.Sublist.refl [n])

theorem Sorted.letIn {n : ℕ} {holder : Option ℕ} (h : a.Sorted) (hlock : a.Locking)
    (hplace : a.place n = .waiting) (hmine : ∀ m, a.holder = some m → m = n) :
    (a.intoStage n true holder).Sorted := by
  apply h.change hlock (changes_intoStage a n true holder) rfl (nodup_letIn h.nodup)
    (sublist_letIn a.order n)
  intro i hi _
  refine ⟨(Place.stage.inj hi).symm, fun k hk hne => ?_⟩
  exact pair_sublist_getLast (mem_letIn.mpr (.inl hk)) (hlock.getLast_letIn hplace hmine) hne

theorem Sorted.move (h : a.Sorted) (hlock : a.Locking) (hm : Move a b) : b.Sorted := by
  cases hm with
  | flow hf => exact h.flow hlock hf
  | @accept n t hplace hct hpasses =>
    have hc : Changes a { a with
        place := Function.update a.place n .waiting, txn := Function.update a.txn n t } n
        .waiting t := ⟨rfl, rfl⟩
    apply h.change hlock hc rfl h.nodup (List.Sublist.refl _)
    exact fun i hp => absurd hp (by simp)
  | @enter n hplace hfree hholder =>
    apply h.letIn hlock hplace
    intro m hm
    rw [hholder] at hm
    exact absurd hm (by simp)
  | @reenter n hplace hfree hholder =>
    apply h.letIn hlock hplace
    intro m hm
    rw [hholder] at hm
    exact (Option.some.inj hm).symm
  | @refuse n k hplace hfree hholder hne =>
    apply h.change hlock (changes_intoStage a n false (some k)) rfl h.nodup (List.Sublist.refl _)
    exact fun i _ hvalid => absurd hvalid Bool.false_ne_true
  | @finish n hplace =>
    have hc : Changes a { a with place := Function.update a.place n .done } n .done (a.txn n) :=
      ⟨rfl, (Function.update_eq_self n a.txn).symm⟩
    apply h.change hlock hc rfl h.nodup (List.Sublist.refl _)
    exact fun i hp => absurd hp (by simp)

/-! ### Between the first pass and the last -/

/-- The transaction has left its first pass, or is about to, and has not entered its last one. -/
inductive Between (a : Pipeline) (n : ℕ) : Prop
  | waiting (hplace : a.place n = .waiting) (hct : 1 ≤ (a.txn n).passCt)
  | stage {i : ℕ} (hactive : a.Active n i) (hct : (a.txn n).passCt + 1 < (a.txn n).passes.length)
      (hleft : 1 ≤ (a.txn n).passCt ∨ i = nStages - 1)

theorem Between.alone {n : ℕ} (h : a.Between n) (hwork : a.Work) (hlock : a.Locking) :
    a.Alone n := by
  cases h with
  | waiting hplace hct =>
    obtain ⟨-, hidle, -⟩ := hlock.holder_waiting hplace (hlock.again hplace hct)
    exact fun m j hm => absurd hm (hidle m j)
  | @stage i hactive hct hleft =>
    cases hlock.holder (hlock.more hactive hct) with
    | waiting hplace _ _ => exact absurd (hactive.1.symm.trans hplace) (by simp)
    | @stage i' hactive' _ hahead halone =>
      obtain rfl : i = i' := Place.stage.inj (hactive.1.symm.trans hactive'.1)
      rcases hleft with hone | rfl
      · exact halone hone
      · -- nothing is beyond the last stage
        intro m j hm
        have hj := (hwork.stage_lt hm.1).1
        have hle := hahead m j hm
        obtain rfl : j = nStages - 1 := by omega
        exact hlock.unique hm.1 hactive.1

/-- The accesses of a transaction that is alone. -/
theorem Alone.flow {n : ℕ} (h : a.Alone n) (hf : Flow a b) :
    b.Alone n ∧ ∃ new, b.history = a.history ++ new ∧ ∀ o ∈ new, o.txn = n := by
  obtain ⟨m, i, new, hplace, hnew, hhistory, -, hactive⟩ := hf.summary
  constructor
  · intro k j hk
    rcases hactive k j hk with ⟨-, hka⟩ | ⟨rfl, hka, -⟩
    · exact h k j hka
    · exact h k i hka
  · refine ⟨new, hhistory, fun o ho => ?_⟩
    rw [hnew.txn o ho]
    exact h m i ⟨hplace, (hnew.stage ho).2⟩

end Pipeline

end P4db.FastLayout
