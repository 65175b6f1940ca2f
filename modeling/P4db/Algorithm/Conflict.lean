import Mathlib.Data.List.Nodup
import Mathlib.Logic.Function.Basic
import Mathlib.Tactic.Common

/-!
# Conflict serializability

A history is a list of accesses of transactions to the items of a store; every access reads its item
and may then overwrite it.  Two accesses conflict if they are to the same item and one of them
writes.  A history is ordered by a list of transactions if conflicting accesses of different
transactions happened in the order of that list.  Then the serial history, in which the transactions
run one after the other, has the same meaning: every access reads the same value, and the store is
the same at the end (`Ordered.replay_legal`).
-/

namespace P4db.Conflict

/-- An access to an item: the value that it read, and the value that it wrote, if any. -/
structure Access (τ ι ν : Type*) where
  txn : τ
  item : ι
  read : ν
  write : Option ν
  deriving DecidableEq, Repr

variable {τ ι ν : Type*} [DecidableEq ι] {σ : ι → ν} {h : List (Access τ ι ν)}

namespace Access

/-- Accesses to the same item, one of which writes. -/
def Conflicts (a b : Access τ ι ν) : Prop := a.item = b.item ∧ (a.write.isSome ∨ b.write.isSome)

/-- The store after an access. -/
def apply (σ : ι → ν) (a : Access τ ι ν) : ι → ν :=
  match a.write with
  | none => σ
  | some v => Function.update σ a.item v

end Access

/-- The store after a history. -/
def replay (σ : ι → ν) (h : List (Access τ ι ν)) : ι → ν := h.foldl Access.apply σ

/-- Every access reads what is in the store. -/
def Legal (σ : ι → ν) : List (Access τ ι ν) → Prop
  | [] => True
  | a :: h => a.read = σ a.item ∧ Legal (a.apply σ) h

theorem replay_append (σ : ι → ν) (h h' : List (Access τ ι ν)) :
    replay σ (h ++ h') = replay (replay σ h) h' := List.foldl_append

theorem legal_append {h' : List (Access τ ι ν)} :
    Legal σ (h ++ h') ↔ Legal σ h ∧ Legal (replay σ h) h' := by
  induction h generalizing σ with
  | nil => simp [Legal, replay]
  | cons a h ih => simp [Legal, replay, ih, and_assoc]

theorem replay_of_forall_ne {c : ι} (hne : ∀ a ∈ h, a.item ≠ c) : replay σ h c = σ c := by
  induction h generalizing σ with
  | nil => rfl
  | cons a h ih =>
    have happly : a.apply σ c = σ c := by
      unfold Access.apply
      cases a.write with
      | none => rfl
      | some v => exact Function.update_of_ne (hne a List.mem_cons_self).symm v σ
    rw [← happly]
    exact ih fun b hb => hne b (List.mem_cons_of_mem a hb)

/-- Accesses that all write the same value. -/
theorem replay_of_forall_write {v : ν} (hw : ∀ a ∈ h, a.write = some v) (c : ι) :
    replay σ h c = if c ∈ h.map Access.item then v else σ c := by
  induction h generalizing σ with
  | nil => rfl
  | cons a h ih =>
    have happly : a.apply σ = Function.update σ a.item v := by
      unfold Access.apply
      rw [hw a List.mem_cons_self]
    show replay (a.apply σ) h c = _
    rw [ih fun b hb => hw b (List.mem_cons_of_mem a hb), happly, List.map_cons]
    by_cases hc : c = a.item
    · subst hc
      simp
    · simp [hc]

/-! ### Accesses that do not conflict -/

omit [DecidableEq ι] in
theorem Access.Conflicts.symm {a b : Access τ ι ν} (h : a.Conflicts b) : b.Conflicts a :=
  ⟨h.1.symm, h.2.symm⟩

theorem apply_item {a b : Access τ ι ν} (h : ¬a.Conflicts b) : a.apply σ b.item = σ b.item := by
  cases hw : a.write with
  | none => simp [Access.apply, hw]
  | some v =>
    have hne : b.item ≠ a.item := fun heq => h ⟨heq.symm, .inl (by simp [hw])⟩
    simp [Access.apply, hw, hne]

theorem apply_comm {a b : Access τ ι ν} (h : ¬a.Conflicts b) :
    b.apply (a.apply σ) = a.apply (b.apply σ) := by
  cases hwa : a.write with
  | none => simp [Access.apply, hwa]
  | some v =>
    cases hwb : b.write with
    | none => simp [Access.apply, hwb]
    | some v' =>
      have hne : b.item ≠ a.item := fun heq => h ⟨heq.symm, .inl (by simp [hwa])⟩
      simp only [Access.apply, hwa, hwb]
      exact Function.update_comm hne.symm ..

/-- Accesses to different items, in any order. -/
theorem replay_perm {h' : List (Access τ ι ν)} (hperm : h.Perm h')
    (hnodup : (h.map Access.item).Nodup) : replay σ h = replay σ h' := by
  apply hperm.foldl_eq'
  intro a ha b hb σ
  by_cases hab : a = b
  · rw [hab]
  · apply apply_comm
    intro hc
    exact hab (List.inj_on_of_nodup_map hnodup ha hb hc.1)

/-- An access can be moved behind others that it does not conflict with. -/
theorem move_back {a : Access τ ι ν} {l : List (Access τ ι ν)} (h : ∀ b ∈ l, ¬a.Conflicts b) :
    replay (a.apply σ) l = a.apply (replay σ l) ∧
      (a.read = σ a.item ∧ Legal (a.apply σ) l ↔ Legal σ l ∧ a.read = replay σ l a.item) := by
  induction l generalizing σ with
  | nil => simp [replay, Legal]
  | cons b l ih =>
    have hb := h b List.mem_cons_self
    have hba : ¬b.Conflicts a := fun hc => hb hc.symm
    obtain ⟨hreplay, hlegal⟩ := ih (σ := b.apply σ) fun b hb => h b (List.mem_cons_of_mem _ hb)
    constructor
    · show replay (b.apply (a.apply σ)) l = a.apply (replay (b.apply σ) l)
      rw [apply_comm hb, hreplay]
    · show a.read = σ a.item ∧ b.read = a.apply σ b.item ∧ Legal (b.apply (a.apply σ)) l ↔
        (b.read = σ b.item ∧ Legal (b.apply σ) l) ∧ a.read = replay (b.apply σ) l a.item
      rw [apply_comm hb, apply_item hb, and_assoc, ← hlegal, apply_item hba]
      tauto

/-! ### Serial histories -/

/-- Two members of an order are in one of the two orders. -/
theorem pair_sublist_total {α : Type*} {l : List α} {a b : α} (ha : a ∈ l) (hb : b ∈ l)
    (hne : a ≠ b) : [a, b].Sublist l ∨ [b, a].Sublist l := by
  induction l with
  | nil => exact absurd ha List.not_mem_nil
  | cons c l ih =>
    rcases List.mem_cons.mp ha with rfl | hal
    · have hbl : b ∈ l := (List.mem_cons.mp hb).resolve_left hne.symm
      exact .inl (List.Sublist.cons_cons a (List.singleton_sublist.mpr hbl))
    · rcases List.mem_cons.mp hb with rfl | hbl
      · exact .inr (List.Sublist.cons_cons b (List.singleton_sublist.mpr hal))
      · exact (ih hal hbl).imp (List.Sublist.cons c) (List.Sublist.cons c)

/-- Two members of a list, one of which cannot be before the other. -/
theorem pair_sublist_of_pairwise {α : Type*} {R : α → α → Prop} {l : List α} (h : l.Pairwise R)
    {x y : α} (hx : x ∈ l) (hy : y ∈ l) (hne : x ≠ y) (hnot : ¬R y x) : [x, y].Sublist l := by
  rcases pair_sublist_total hx hy hne with hsub | hsub
  · exact hsub
  · exact absurd (List.pairwise_pair.mp (h.sublist hsub)) hnot

/-- Two members of a list, the later one of which is in its first part. -/
theorem pair_sublist_left {α : Type*} {l₁ l₂ : List α} {x y : α} (h : [x, y].Sublist (l₁ ++ l₂))
    (hnodup : (l₁ ++ l₂).Nodup) (hy : y ∈ l₁) : [x, y].Sublist l₁ := by
  obtain ⟨k₁, k₂, heq, hk₁, hk₂⟩ := List.sublist_append_iff.mp h
  rcases List.eq_nil_or_concat k₂ with rfl | ⟨k, z, rfl⟩
  · rwa [heq, List.append_nil]
  · have hlast : z = y := by
      have := congrArg List.getLast? heq
      simpa using this.symm
    refine absurd (hk₂.subset ?_) (List.disjoint_of_nodup_append hnodup hy)
    rw [hlast, List.concat_eq_append]
    exact List.mem_concat_self

section Serial
variable [DecidableEq τ]

/-- The transactions run one after the other. -/
def serial (h : List (Access τ ι ν)) (order : List τ) : List (Access τ ι ν) :=
  order.flatMap fun t => h.filter fun a => a.txn = t

/-- Conflicting accesses of different transactions are in the order of the transactions. -/
def Ordered (h : List (Access τ ι ν)) (order : List τ) : Prop :=
  ∀ a b, [a, b].Sublist h → a.txn ≠ b.txn → a.Conflicts b → [a.txn, b.txn].Sublist order

omit [DecidableEq ι] [DecidableEq τ] in
/-- More accesses of one transaction. -/
theorem Ordered.append {new : List (Access τ ι ν)} {order order' : List τ}
    (hord : Ordered h order) (hsub : order.Sublist order')
    (hsame : ∀ a ∈ new, ∀ b ∈ new, a.txn = b.txn)
    (hnew : ∀ a ∈ h, ∀ b ∈ new, a.txn ≠ b.txn → a.Conflicts b → [a.txn, b.txn].Sublist order') :
    Ordered (h ++ new) order' := by
  intro a b hab hne hc
  obtain ⟨l₁, l₂, heq, h₁, h₂⟩ := List.sublist_append_iff.mp hab
  match l₁, heq with
  | [], heq =>
    subst heq
    exact absurd (hsame a (h₂.subset (by simp)) b (h₂.subset (by simp))) hne
  | [x], heq =>
    simp only [List.cons_append, List.nil_append, List.cons.injEq] at heq
    obtain ⟨rfl, rfl⟩ := heq
    exact hnew a (h₁.subset (by simp)) b (h₂.subset (by simp)) hne hc
  | [x, y], heq =>
    simp only [List.cons_append, List.nil_append, List.cons.injEq] at heq
    obtain ⟨rfl, rfl, -⟩ := heq
    exact (hord a b h₁ hne hc).trans hsub
  | _ :: _ :: _ :: _, heq => simp at heq

/-- The accesses of a transaction are moved to the front, when no earlier access conflicts with
them. -/
theorem move_front {t : τ}
    (hno : ∀ a b, [a, b].Sublist h → a.txn ≠ t → b.txn = t → ¬a.Conflicts b) :
    replay σ h = replay σ ((h.filter fun a => a.txn = t) ++ h.filter fun a => a.txn ≠ t) ∧
      (Legal σ h → Legal σ ((h.filter fun a => a.txn = t) ++ h.filter fun a => a.txn ≠ t)) := by
  induction h generalizing σ with
  | nil => simp
  | cons a h ih =>
    obtain ⟨hreplay, hlegal⟩ := ih (σ := a.apply σ) fun x y hxy => hno x y (hxy.cons a)
    by_cases ha : a.txn = t
    · simp only [ha, List.filter_cons, decide_true, if_true, ne_eq, not_true_eq_false, decide_false,
        Bool.false_eq_true, if_false, List.cons_append]
      exact ⟨hreplay, fun hl => ⟨hl.1, hlegal hl.2⟩⟩
    · -- `a` is moved behind the accesses of `t`
      have hback : ∀ b ∈ h.filter fun a => a.txn = t, ¬a.Conflicts b := by
        intro b hb
        obtain ⟨hb, hbt⟩ := List.mem_filter.mp hb
        exact hno a b (List.Sublist.cons_cons a (List.singleton_sublist.mpr hb)) ha
          (of_decide_eq_true hbt)
      simp only [ha, List.filter_cons, decide_false, Bool.false_eq_true, if_false, ne_eq,
        not_false_eq_true, decide_true, if_true]
      obtain ⟨hmove, hmoveLegal⟩ := move_back (σ := σ) hback
      rw [replay_append] at hreplay ⊢
      rw [legal_append] at hlegal ⊢
      constructor
      · rw [show replay σ (a :: h) = replay (a.apply σ) h from rfl, hreplay, hmove]
        rfl
      · rintro ⟨hread, hl⟩
        obtain ⟨hfront, hrest⟩ := hlegal hl
        obtain ⟨h₁, h₂⟩ := hmoveLegal.mp ⟨hread, hfront⟩
        rw [hmove] at hrest
        exact ⟨h₁, h₂, hrest⟩

omit [DecidableEq ι] in
theorem serial_filter_ne {t : τ} {ts : List τ} (ht : t ∉ ts) :
    serial (h.filter fun a => a.txn ≠ t) ts = serial h ts := by
  apply List.flatMap_congr
  intro u hu
  have hne : u ≠ t := fun heq => ht (heq ▸ hu)
  rw [List.filter_filter]
  apply List.filter_congr
  intro a _
  by_cases hau : a.txn = u
  · simp [hau, hne]
  · simp [hau]

omit [DecidableEq ι] in
theorem Ordered.tail {t : τ} {ts : List τ} (hord : Ordered h (t :: ts)) :
    Ordered (h.filter fun a => a.txn ≠ t) ts := by
  intro a b hab hne hc
  have ha : a ∈ h.filter fun a => a.txn ≠ t := hab.subset List.mem_cons_self
  have hat : a.txn ≠ t := of_decide_eq_true (List.mem_filter.mp ha).2
  cases hord a b (hab.trans List.filter_sublist) hne hc with
  | cons _ h => exact h
  | cons_cons _ h => exact absurd rfl hat

/-- **The serial history has the same meaning.** -/
theorem Ordered.replay_legal {order : List τ} (hord : Ordered h order) (hnodup : order.Nodup)
    (hmem : ∀ a ∈ h, a.txn ∈ order) :
    replay σ h = replay σ (serial h order) ∧ (Legal σ h → Legal σ (serial h order)) := by
  induction order generalizing h σ with
  | nil =>
    have hnil : h = [] := List.eq_nil_iff_forall_not_mem.mpr fun a ha =>
      List.not_mem_nil (hmem a ha)
    subst hnil
    exact ⟨rfl, id⟩
  | cons t ts ih =>
    obtain ⟨ht, hts⟩ := List.nodup_cons.mp hnodup
    -- no transaction stands before the first one
    have hno : ∀ a b, [a, b].Sublist h → a.txn ≠ t → b.txn = t → ¬a.Conflicts b := by
      intro a b hab ha hb hc
      have hsub := hord a b hab (by rwa [hb]) hc
      rw [hb] at hsub
      cases hsub with
      | cons _ h => exact ht (h.subset (by simp))
      | cons_cons _ h => exact ha rfl
    have hrest : ∀ a ∈ h.filter fun a => a.txn ≠ t, a.txn ∈ ts := by
      intro a ha
      obtain ⟨ha, hat⟩ := List.mem_filter.mp ha
      exact (List.mem_cons.mp (hmem a ha)).resolve_left (of_decide_eq_true hat)
    obtain ⟨hreplay, hlegal⟩ := move_front (σ := σ) hno
    obtain ⟨hreplay', hlegal'⟩ :=
      ih (σ := replay σ (h.filter fun a => a.txn = t)) hord.tail hts hrest
    rw [serial_filter_ne ht] at hreplay' hlegal'
    rw [replay_append] at hreplay
    rw [legal_append] at hlegal
    constructor
    · rw [hreplay, hreplay', ← replay_append]
      rfl
    · intro hl
      obtain ⟨h₁, h₂⟩ := hlegal hl
      exact legal_append.mpr ⟨h₁, hlegal' h₂⟩

end Serial

end P4db.Conflict
