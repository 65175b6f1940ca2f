import P4db.FastLayout.Switch

/-!
# The pipeline without its queues

What the simulated switch is for: a transaction waits, goes through the stages of the pipeline, as
often as it has passes, and leaves.  Here a transaction is named by its number, not by its slot;
those that wait are in no order, and any of them may enter when the first stage is free.  What an
access reads is not determined either.

`Work` says which accesses a transaction has made, wherever it is: all of those of the passes that
it has completed, and those in the stages that it has gone through since, if it was let in.
-/

namespace P4db.FastLayout

/-- Where a transaction is. -/
inductive Place
  | fresh
  | waiting
  | stage (i : ℕ)
  | out
  | done
  deriving DecidableEq

/-- The transactions with their places, the lock, and what has happened. -/
structure Pipeline where
  place : ℕ → Place
  txn : ℕ → SwTxn
  holder : Option ℕ
  history : List RegOp
  order : List ℕ

/-! ### Accesses -/

/-- What an access does for its transaction. -/
def RegOp.visit (o : RegOp) : ℕ × RegCell := (o.pass, o.cell)

/-- The accesses in one stage of a pass, whose number is `p`. -/
def SwPassTxn.visits (pass : SwPassTxn) (p i : ℕ) : List (ℕ × RegCell) :=
  (pass.opsAt i).map fun o => (p, i, o.1, o.2)

/-- The accesses of all passes, one pass after the other. -/
def visitsOf (passes : List SwPassTxn) : List (ℕ × RegCell) :=
  passes.zipIdx.flatMap fun x => (List.range nStages).flatMap (x.1.visits x.2)

/-- The accesses that a transaction makes in one stage. -/
def SwTxn.visits (t : SwTxn) (i : ℕ) : List (ℕ × RegCell) :=
  if t.valid then (t.passes[t.passCt]?).elim [] fun pass => pass.visits t.passCt i else []

/-- The accesses of the passes that a transaction has completed. -/
def SwTxn.completed (t : SwTxn) : List (ℕ × RegCell) := visitsOf (t.passes.take t.passCt)

/-- Transaction `n` makes its accesses in stage `i`. -/
structure Accesses (n : ℕ) (t : SwTxn) (i : ℕ) (new : List RegOp) : Prop where
  txn : ∀ o ∈ new, o.txn = n
  visit : new.map RegOp.visit = t.visits i

/-- A transaction leaves the pipeline for good, or to wait for its next pass. -/
structure Leaves (t t' : SwTxn) (p : Place) : Prop where
  passes : t'.passes = t.passes
  passCt : t'.passCt = if t.valid then t.passCt + 1 else t.passCt
  place : p = .waiting ∧ t'.passCt ≠ t'.passes.length ∨
    p = .out ∧ (t'.passCt = t'.passes.length ∨ t'.passCt = 0)

namespace Pipeline

/-! ### Moves -/

/-- A transaction moves on in the pipeline. -/
inductive Flow (a : Pipeline) : Pipeline → Prop
  | advance {n i : ℕ} {new : List RegOp} (hplace : a.place n = .stage i) (hi : i + 1 < nStages)
      (hfree : ∀ m, a.place m ≠ .stage (i + 1)) (hnew : Accesses n (a.txn n) i new) :
      Flow a { a with
        place := Function.update a.place n (.stage (i + 1))
        history := a.history ++ new }
  | leave {n : ℕ} {new : List RegOp} {t : SwTxn} {p : Place}
      (hplace : a.place n = .stage (nStages - 1))
      (hnew : Accesses n (a.txn n) (nStages - 1) new) (hleaves : Leaves (a.txn n) t p) :
      Flow a { a with
        place := Function.update a.place n p
        txn := Function.update a.txn n t
        history := a.history ++ new }

/-- The order with a transaction that has been let in. -/
def letIn (order : List ℕ) (n : ℕ) : List ℕ := if n ∈ order then order else order ++ [n]

/-- A transaction goes into the first stage. -/
def intoStage (a : Pipeline) (n : ℕ) (valid : Bool) (holder : Option ℕ) : Pipeline :=
  { a with
    place := Function.update a.place n (.stage 0)
    txn := Function.update a.txn n { a.txn n with valid := valid }
    holder := holder
    order := if valid then letIn a.order n else a.order }

/-- What can happen. -/
inductive Move (a : Pipeline) : Pipeline → Prop
  | flow {b : Pipeline} (h : Flow a b) : Move a b
  | accept {n : ℕ} {t : SwTxn} (hplace : a.place n = .fresh) (hct : t.passCt = 0)
      (hpasses : 0 < t.passes.length) :
      Move a { a with
        place := Function.update a.place n .waiting, txn := Function.update a.txn n t }
  | enter {n : ℕ} (hplace : a.place n = .waiting) (hfree : ∀ m, a.place m ≠ .stage 0)
      (hholder : a.holder = none) :
      Move a (a.intoStage n true (if 2 ≤ (a.txn n).passes.length then some n else none))
  | reenter {n : ℕ} (hplace : a.place n = .waiting) (hfree : ∀ m, a.place m ≠ .stage 0)
      (hholder : a.holder = some n) :
      Move a (a.intoStage n true (if (a.txn n).passes.length = (a.txn n).passCt + 1 then none
        else some n))
  | refuse {n h : ℕ} (hplace : a.place n = .waiting) (hfree : ∀ m, a.place m ≠ .stage 0)
      (hholder : a.holder = some h) (hne : h ≠ n) : Move a (a.intoStage n false (some h))
  | finish {n : ℕ} (hplace : a.place n = .out) :
      Move a { a with place := Function.update a.place n .done }

/-! ### The work that is done -/

/-- The accesses of a transaction. -/
def work (a : Pipeline) (n : ℕ) : List (ℕ × RegCell) :=
  (a.history.filter fun o => o.txn = n).map RegOp.visit

/-- The accesses that a transaction has made in a place. -/
def WorkAt (t : SwTxn) (d : List (ℕ × RegCell)) : Place → Prop
  | .fresh => d = []
  | .waiting => t.passCt < t.passes.length ∧ d = t.completed
  | .stage i =>
    i < nStages ∧ t.passCt < t.passes.length ∧ d = t.completed ++ (List.range i).flatMap t.visits
  | .out => (t.passCt = t.passes.length ∨ t.passCt = 0) ∧ d = t.completed
  | .done => (t.passCt = t.passes.length ∨ t.passCt = 0) ∧ d = t.completed

/-- Every transaction has made the accesses of its place. -/
def Work (a : Pipeline) : Prop := ∀ n, WorkAt (a.txn n) (a.work n) (a.place n)

theorem visits_of_not_valid {t : SwTxn} (h : t.valid = false) (i : ℕ) : t.visits i = [] := by
  unfold SwTxn.visits
  rw [h]
  rfl

theorem visitsOf_take_succ {passes : List SwPassTxn} {k : ℕ} {pass : SwPassTxn}
    (h : passes[k]? = some pass) :
    visitsOf (passes.take (k + 1)) = visitsOf (passes.take k) ++
      (List.range nStages).flatMap (pass.visits k) := by
  have hk : k < passes.length := (List.getElem?_eq_some_iff.mp h).1
  unfold visitsOf
  rw [List.take_add_one, h, Option.toList_some, List.zipIdx_append, List.flatMap_append,
    List.length_take_of_le (Nat.le_of_lt hk), List.zipIdx_singleton, List.flatMap_singleton,
      Nat.zero_add]

/-- A transaction that was let in completes a pass. -/
theorem completed_of_leaves {t t' : SwTxn} {p : Place} (h : Leaves t t' p)
    (hct : t.passCt < t.passes.length) :
    t'.completed = t.completed ++ (List.range nStages).flatMap t.visits := by
  unfold SwTxn.completed
  rw [h.passes, h.passCt]
  cases hv : t.valid with
  | false =>
    have hnil : (List.range nStages).flatMap t.visits = [] := by
      rw [List.flatMap_eq_nil_iff]
      exact fun i _ => visits_of_not_valid hv i
    rw [hnil, List.append_nil, if_neg Bool.false_ne_true]
  | true =>
    have hpass : t.passes[t.passCt]? = some t.passes[t.passCt] := List.getElem?_eq_getElem hct
    have hvisits : t.visits = t.passes[t.passCt].visits t.passCt := by
      funext i
      unfold SwTxn.visits
      rw [hv, if_pos rfl, hpass]
      rfl
    rw [if_pos rfl, visitsOf_take_succ hpass, hvisits]

variable {a b : Pipeline}

/-! #### More accesses -/

theorem work_append {n m i : ℕ} {t : SwTxn} {new : List RegOp} (h : Accesses n t i new) :
    ((a.history ++ new).filter fun o => o.txn = m).map RegOp.visit = a.work m ++ if m =
    n then t.visits i else [] := by
  rw [List.filter_append, List.map_append]
  congr 1
  split_ifs with hm
  · rw [List.filter_eq_self.mpr, h.visit]
    intro o ho
    rw [h.txn o ho, hm, decide_eq_true rfl]
  · rw [List.filter_eq_nil_iff.mpr, List.map_nil]
    intro o ho hom
    exact hm ((of_decide_eq_true hom).symm.trans (h.txn o ho))

/-- One transaction makes accesses, and changes its place. -/
theorem Work.update {n i : ℕ} {t : SwTxn} {p : Place} {new : List RegOp} (hwork : a.Work)
    (hnew : Accesses n (a.txn n) i new) (hn : WorkAt t (a.work n ++ (a.txn n).visits i) p) (m : ℕ) :
    WorkAt (Function.update a.txn n t m)
      (((a.history ++ new).filter fun o => o.txn = m).map RegOp.visit)
      (Function.update a.place n p m) := by
  rw [work_append hnew]
  by_cases hm : m = n
  · subst hm
    rw [Function.update_self, Function.update_self, if_pos rfl]
    exact hn
  · rw [Function.update_of_ne hm, Function.update_of_ne hm, if_neg hm, List.append_nil]
    exact hwork m

/-- One transaction changes its place without accesses. -/
theorem Work.relocate {n : ℕ} {t : SwTxn} {p : Place} (hwork : a.Work) (hn : WorkAt t (a.work n) p)
    (m : ℕ) : WorkAt (Function.update a.txn n t m) (a.work m) (Function.update a.place n p m) := by
  by_cases hm : m = n
  · subst hm
    rw [Function.update_self, Function.update_self]
    exact hn
  · rw [Function.update_of_ne hm, Function.update_of_ne hm]
    exact hwork m

/-! #### Every move -/

theorem Work.flow (hwork : a.Work) (h : Flow a b) : b.Work := by
  cases h with
  | @advance n i new hplace hi hfree hnew =>
    have hn := hwork n
    rw [hplace] at hn
    obtain ⟨-, hct, hd⟩ := hn
    have hat : WorkAt (a.txn n) (a.work n ++ (a.txn n).visits i) (.stage (i + 1)) := by
      refine ⟨hi, hct, ?_⟩
      rw [hd, List.range_succ, List.flatMap_append, List.flatMap_singleton, List.append_assoc]
    intro m
    have hm := hwork.update hnew hat m
    rwa [Function.update_eq_self] at hm
  | @leave n new t p hplace hnew hleaves =>
    have hn := hwork n
    rw [hplace] at hn
    obtain ⟨-, hct, hd⟩ := hn
    have hdone : a.work n ++ (a.txn n).visits (nStages - 1) = t.completed := by
      rw [hd, completed_of_leaves hleaves hct, List.append_assoc,
        ← List.flatMap_singleton (a.txn n).visits, ← List.flatMap_append, ← List.range_succ]
      rfl
    apply hwork.update hnew
    rw [hdone]
    rcases hleaves.place with ⟨rfl, hne⟩ | ⟨rfl, hend⟩
    · refine ⟨?_, rfl⟩
      have hle : t.passCt ≤ t.passes.length := by
        rw [hleaves.passCt, hleaves.passes]
        split_ifs <;> omega
      omega
    · exact ⟨hend, rfl⟩

theorem Work.intoStage {n : ℕ} (hwork : a.Work) (hplace : a.place n = .waiting) (valid : Bool)
    (holder : Option ℕ) : (a.intoStage n valid holder).Work := by
  have hn := hwork n
  rw [hplace] at hn
  apply hwork.relocate
  exact ⟨by decide, hn.1, hn.2.trans (List.append_nil _).symm⟩

theorem Work.move (hwork : a.Work) (h : Move a b) : b.Work := by
  cases h with
  | flow h => exact hwork.flow h
  | @accept n t hplace hct hpasses =>
    have hn : a.work n = [] := by
      have hn := hwork n
      rwa [hplace] at hn
    apply hwork.relocate
    refine ⟨by rw [hct]; exact hpasses, ?_⟩
    unfold SwTxn.completed
    rw [hn, hct]
    rfl
  | enter hplace _ _ => exact hwork.intoStage hplace _ _
  | reenter hplace _ _ => exact hwork.intoStage hplace _ _
  | refuse hplace _ _ _ => exact hwork.intoStage hplace _ _
  | @finish n hplace =>
    have hn := hwork n
    rw [hplace] at hn
    intro m
    have hm := hwork.relocate (t := a.txn n) (p := .done) hn m
    rwa [Function.update_eq_self] at hm

end Pipeline

/-! ### All the accesses of a transaction -/

theorem mem_visitsOf {passes : List SwPassTxn} {p : ℕ} {cell : RegCell} :
    (p, cell) ∈ visitsOf passes ↔ ∃ pass, passes[p]? = some pass ∧ cell.1 < nStages ∧
    cell.2.1 < regsPerStage ∧
      pass.grid cell.1 cell.2.1 = some cell.2.2 := by
  obtain ⟨i, r, slot⟩ := cell
  unfold visitsOf SwPassTxn.visits
  constructor
  · intro h
    obtain ⟨⟨pass, k⟩, hpass, h⟩ := List.mem_flatMap.mp h
    obtain ⟨j, hj, h⟩ := List.mem_flatMap.mp h
    obtain ⟨o, ho, heq⟩ := List.mem_map.mp h
    simp only [Prod.mk.injEq] at heq
    obtain ⟨rfl, rfl, rfl, rfl⟩ := heq
    obtain ⟨hr, hgrid⟩ := SwPassTxn.mem_opsAt.mp ho
    exact ⟨pass, List.mem_zipIdx_iff_getElem?.mp hpass, List.mem_range.mp hj, hr, hgrid⟩
  · rintro ⟨pass, hpass, hi, hr, hgrid⟩
    apply List.mem_flatMap.mpr
    refine ⟨(pass, p), List.mem_zipIdx_iff_getElem?.mpr hpass, ?_⟩
    apply List.mem_flatMap.mpr
    refine ⟨i, List.mem_range.mpr hi, ?_⟩
    exact List.mem_map.mpr ⟨(r, slot), SwPassTxn.mem_opsAt.mpr ⟨hr, hgrid⟩, rfl⟩

/-- The accesses are in the order of their passes, stages and registers. -/
theorem pairwise_visitsOf (passes : List SwPassTxn) :
    (visitsOf passes).Pairwise fun v w => v.1 < w.1 ∨ v.1 = w.1 ∧
      (v.2.1 < w.2.1 ∨ v.2.1 = w.2.1 ∧ v.2.2.1 < w.2.2.1) := by
  unfold visitsOf
  rw [List.pairwise_flatMap]
  constructor
  · rintro ⟨pass, p⟩ -
    rw [List.pairwise_flatMap]
    constructor
    · intro i _
      apply List.Pairwise.map _ _ (pass.pairwise_opsAt i)
      exact fun o o' hlt => .inr ⟨rfl, .inr ⟨rfl, hlt⟩⟩
    · apply List.Pairwise.imp _ List.pairwise_lt_range
      intro i j hlt v hv w hw
      obtain ⟨o, -, rfl⟩ := List.mem_map.mp hv
      obtain ⟨o', -, rfl⟩ := List.mem_map.mp hw
      exact .inr ⟨rfl, .inl hlt⟩
  · have hlt : (passes.zipIdx.map Prod.snd).Pairwise (· < ·) := by
      rw [List.zipIdx_map_snd]
      exact List.pairwise_lt_range'
    apply List.Pairwise.imp _ (List.pairwise_map.mp hlt)
    rintro ⟨pass, p⟩ ⟨pass', p'⟩ hpp v hv w hw
    obtain ⟨i, -, hv⟩ := List.mem_flatMap.mp hv
    obtain ⟨o, -, rfl⟩ := List.mem_map.mp hv
    obtain ⟨j, -, hw⟩ := List.mem_flatMap.mp hw
    obtain ⟨o', -, rfl⟩ := List.mem_map.mp hw
    exact .inl hpp

theorem nodup_visitsOf (passes : List SwPassTxn) : (visitsOf passes).Nodup := by
  apply List.Pairwise.imp _ (pairwise_visitsOf passes)
  rintro v w h rfl
  omega

end P4db.FastLayout
