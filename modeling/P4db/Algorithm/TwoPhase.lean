import Mathlib.Data.List.Induction
import Mathlib.Data.List.Nodup
import Mathlib.Data.List.Perm.Basic
import Mathlib.Logic.Function.Basic
import Mathlib.Tactic.Common

/-!
# Strict two-phase locking

Transactions lock items, shared or exclusive, read and write under their locks, and release them.  A
transaction that has released a lock takes no further lock, reads and writes nothing, and it
releases a lock only after it has committed or if it has written nothing.

`Step` is the machine that checks these rules event by event and keeps, beside the locks and the
store, the committed transactions in the order of their first release.  `Inv` holds in every state
of it (`Inv.step`), and it contains the point of the protocol: that order is a `SerialOrder` of the
history.

A program is shown to follow the protocol by keeping a state of the machine that meets `Inv` and
moves along with it.
-/

namespace P4db.TwoPhase

/-! ### Histories -/

/-- A lock: the operation it belongs to, given by a transaction and a number, the item, and whether
it is exclusive. -/
structure Lock (τ ι : Type*) where
  txn : τ
  op : ℕ
  item : ι
  excl : Bool
  deriving DecidableEq, Repr

/-- What happens to locks and values. -/
inductive Event (τ ι ν : Type*)
  | lock (l : Lock τ ι)
  | read (l : Lock τ ι) (v : ν)
  | write (l : Lock τ ι) (v : ν)
  | commit (t : τ)
  | unlock (l : Lock τ ι)
  deriving DecidableEq, Repr

variable {τ ι ν : Type*} {l : Lock τ ι}

/-- Locks on the same item are both shared. -/
def Compatible (l l' : Lock τ ι) : Prop :=
  l.item = l'.item → l.excl = false ∧ l'.excl = false

theorem Compatible.symm {l' : Lock τ ι} (h : Compatible l l') : Compatible l' l :=
  fun heq => (h heq.symm).symm

namespace Event

/-- The transaction of an event. -/
def txn : Event τ ι ν → τ
  | .lock l => l.txn
  | .read l _ => l.txn
  | .write l _ => l.txn
  | .commit t => t
  | .unlock l => l.txn

/-- The lock under which an event reads or writes. -/
def access : Event τ ι ν → Option (Lock τ ι)
  | .read l _ => some l
  | .write l _ => some l
  | _ => none

end Event

variable (h : List (Event τ ι ν))

/-- The transaction has released a lock. -/
def Released (t : τ) : Prop := ∃ l, .unlock l ∈ h ∧ l.txn = t

/-- The transaction has committed. -/
def Committed (t : τ) : Prop := .commit t ∈ h

/-- The transaction has written something. -/
def Wrote (t : τ) : Prop := ∃ l v, .write l v ∈ h ∧ l.txn = t

section
variable [DecidableEq τ]

/-- Whether an event is a release by `t`. -/
def isRelease (t : τ) : Event τ ι ν → Bool
  | .unlock l => l.txn = t
  | _ => false

/-- The position of the first release by `t`. -/
def firstRelease (t : τ) : ℕ := h.findIdx (isRelease t)

variable [DecidableEq ι]

/-- The last value `t` has written to `x`, after one more event. -/
def record (t : τ) (x : ι) (r : Option ν) : Event τ ι ν → Option ν
  | .write l v => if l.txn = t ∧ l.item = x then some v else r
  | _ => r

/-- The last value `t` has written to `x`. -/
def lastWrite (t : τ) (x : ι) : Option ν := h.foldl (record t x) none

/-- The value of `x` after the transactions `ts`, one after the other: the last write to `x` in that
order, or the initial value. -/
def valueAfter (init : ι → ν) (ts : List τ) (x : ι) : ν :=
  ts.foldl (fun v t => (lastWrite h t x).getD v) (init x)

/-- `order` is a serial order of the committed transactions: they stand in the order of their first
release, everything a transaction has read is what it would read if they ran one after the other,
and conflicting accesses happened in that order. -/
structure SerialOrder (init : ι → ν) (order : List τ) : Prop where
  nodup : order.Nodup
  mem_iff : ∀ t, t ∈ order ↔ Committed h t ∧ Released h t
  sorted : order.Pairwise fun t t' => firstRelease h t < firstRelease h t'
  reads : ∀ pre t post, order = pre ++ t :: post →
    ∀ l v, .read l v ∈ h → l.txn = t → v = valueAfter h init pre l.item
  conflicts : ∀ e e' l l', [e, e'].Sublist h → e.access = some l → e'.access = some l' →
    l.txn ≠ l'.txn → ¬Compatible l l' → l.txn ∈ order → l'.txn ∈ order →
    [l.txn, l'.txn].Sublist order

end

/-! ### Appending an event -/

section Append
variable {h} {e : Event τ ι ν} {t : τ}

theorem pair_sublist_concat {α : Type*} {a b c : α} {l : List α} :
    [a, b].Sublist (l ++ [c]) ↔ [a, b].Sublist l ∨ a ∈ l ∧ b = c := by
  constructor
  · intro hs
    obtain ⟨l₁, l₂, heq, h₁, h₂⟩ := List.sublist_append_iff.mp hs
    rcases List.sublist_singleton.mp h₂ with rfl | rfl
    · rw [List.append_nil] at heq
      exact Or.inl (heq ▸ h₁)
    · obtain ⟨rfl, rfl⟩ : l₁ = [a] ∧ b = c := by
        have := List.append_inj' (show [a] ++ [b] = l₁ ++ [c] from heq) rfl
        simpa [eq_comm] using this
      exact Or.inr ⟨List.singleton_sublist.mp h₁, rfl⟩
  · rintro (hs | ⟨ha, rfl⟩)
    · exact hs.trans (List.sublist_append_left _ _)
    · exact (List.singleton_sublist.mpr ha).append (List.Sublist.refl [b])

theorem released_concat :
    Released (h ++ [e]) t ↔ Released h t ∨ ∃ l, e = .unlock l ∧ l.txn = t := by
  constructor
  · rintro ⟨l, hl, ht⟩
    rcases List.mem_append.mp hl with hl | hl
    · exact Or.inl ⟨l, hl, ht⟩
    · exact Or.inr ⟨l, (List.mem_singleton.mp hl).symm, ht⟩
  · rintro (⟨l, hl, ht⟩ | ⟨l, rfl, ht⟩)
    · exact ⟨l, List.mem_append_left _ hl, ht⟩
    · exact ⟨l, List.mem_append_right _ List.mem_cons_self, ht⟩

theorem committed_concat : Committed (h ++ [e]) t ↔ Committed h t ∨ e = .commit t := by
  rw [Committed, List.mem_append, List.mem_singleton, eq_comm (a := Event.commit t)]
  rfl

theorem not_released_concat (ht : ¬Released h t) (he : ∀ l, e ≠ .unlock l) :
    ¬Released (h ++ [e]) t := by
  rw [released_concat]
  rintro (hr | ⟨l, rfl, -⟩)
  · exact ht hr
  · exact he l rfl

theorem not_wrote_concat (ht : ¬Wrote h t) (he : ∀ l v, e ≠ .write l v) : ¬Wrote (h ++ [e]) t := by
  rintro ⟨l, v, hw, hl⟩
  rcases List.mem_append.mp hw with hw | hw
  · exact ht ⟨l, v, hw, hl⟩
  · exact he l v (List.mem_singleton.mp hw).symm

variable [DecidableEq τ]

theorem isRelease_iff : isRelease t e = true ↔ ∃ l, e = .unlock l ∧ l.txn = t := by
  cases e <;> simp [isRelease]

theorem firstRelease_lt (ht : Released h t) : firstRelease h t < h.length := by
  obtain ⟨l, hl, hlt⟩ := ht
  exact List.findIdx_lt_length_of_exists ⟨_, hl, isRelease_iff.mpr ⟨l, rfl, hlt⟩⟩

theorem firstRelease_concat (ht : Released h t) : firstRelease (h ++ [e]) t = firstRelease h t := by
  have hlt := firstRelease_lt ht
  unfold firstRelease at hlt ⊢
  rw [List.findIdx_append, if_pos hlt]

theorem firstRelease_concat_self (ht : ¬Released h l.txn) :
    firstRelease (h ++ [.unlock l]) l.txn = h.length := by
  have hnone : List.findIdx (isRelease l.txn) h = h.length := by
    apply List.findIdx_eq_length_of_false
    intro e he
    by_contra hrel
    obtain ⟨l', rfl, hl'⟩ := isRelease_iff.mp ((Bool.not_eq_false _).mp hrel)
    exact ht ⟨l', he, hl'⟩
  have hself : isRelease l.txn (Event.unlock l : Event τ ι ν) = true :=
    isRelease_iff.mpr ⟨l, rfl, rfl⟩
  unfold firstRelease
  rw [List.findIdx_append, hnone, if_neg (Nat.lt_irrefl _)]
  simp [List.findIdx_cons, hself]

variable [DecidableEq ι] {x : ι}

theorem lastWrite_concat : lastWrite (h ++ [e]) t x = record t x (lastWrite h t x) e := by
  rw [lastWrite, List.foldl_append]
  rfl

theorem lastWrite_concat_of_txn_ne (hne : e.txn ≠ t) :
    lastWrite (h ++ [e]) t x = lastWrite h t x := by
  rw [lastWrite_concat]
  cases e with
  | write l v => exact if_neg fun hl => hne hl.1
  | _ => rfl

theorem lastWrite_concat_of_not_write (hne : ∀ l v, e ≠ .write l v) :
    lastWrite (h ++ [e]) t x = lastWrite h t x := by
  rw [lastWrite_concat]
  cases e with
  | write l v => exact absurd rfl (hne l v)
  | _ => rfl

/-- A transaction that has not written an item has no last write to it. -/
theorem lastWrite_eq_none (hw : ∀ l v, .write l v ∈ h → l.txn = t → l.item ≠ x) :
    lastWrite h t x = none := by
  induction h using List.reverseRecOn with
  | nil => rfl
  | append_singleton h e ih =>
    rw [lastWrite_concat, ih fun l v hl => hw l v (List.mem_append_left _ hl)]
    cases e with
    | write l v =>
      exact if_neg fun hl => hw l v (List.mem_append_right _ List.mem_cons_self) hl.1 hl.2
    | _ => rfl

variable {init : ι → ν} {ts : List τ}

theorem valueAfter_congr {h' : List (Event τ ι ν)}
    (hw : ∀ t ∈ ts, lastWrite h' t x = lastWrite h t x) :
    valueAfter h' init ts x = valueAfter h init ts x := by
  unfold valueAfter
  induction ts using List.reverseRecOn with
  | nil => rfl
  | append_singleton ts t ih =>
    rw [List.foldl_append, List.foldl_append, ih fun t ht => hw t (List.mem_append_left _ ht)]
    simp only [List.foldl_cons, List.foldl_nil,
      hw t (List.mem_append_right _ List.mem_cons_self)]

theorem valueAfter_concat (t : τ) :
    valueAfter h init (ts ++ [t]) x = (lastWrite h t x).getD (valueAfter h init ts x) := by
  rw [valueAfter, List.foldl_append]
  rfl

/-- A transaction that has not written an item leaves its value. -/
theorem valueAfter_concat_of_not_written (hw : ∀ l v, .write l v ∈ h → l.txn = t → l.item ≠ x) :
    valueAfter h init (ts ++ [t]) x = valueAfter h init ts x := by
  rw [valueAfter_concat, lastWrite_eq_none hw]
  rfl

theorem valueAfter_append_of_not_mem (hne : e.txn ∉ ts) :
    valueAfter (h ++ [e]) init ts x = valueAfter h init ts x :=
  valueAfter_congr fun _ ht => lastWrite_concat_of_txn_ne fun heq => hne (heq ▸ ht)

theorem valueAfter_append_of_not_write (hne : ∀ l v, e ≠ .write l v) :
    valueAfter (h ++ [e]) init ts x = valueAfter h init ts x :=
  valueAfter_congr fun _ _ => lastWrite_concat_of_not_write hne

end Append

/-! ### Serial orders of longer histories -/

section Serial
variable {h} [DecidableEq τ] [DecidableEq ι] {init : ι → ν} {order : List τ} {e : Event τ ι ν}

/-- Events of transactions that have not released anything leave the order as it is. -/
theorem SerialOrder.growing (hs : SerialOrder h init order) (hgrow : ¬Released h e.txn)
    (hne : ∀ l, e ≠ .unlock l) : SerialOrder (h ++ [e]) init order := by
  have hrel : ∀ t, Released (h ++ [e]) t ↔ Released h t := fun t =>
    released_concat.trans (or_iff_left fun ⟨l, he, _⟩ => hne l he)
  have hnot : e.txn ∉ order := fun ht => hgrow ((hs.mem_iff _).mp ht).2
  refine ⟨hs.nodup, fun t => ?_, ?_, ?_, ?_⟩
  · rw [hs.mem_iff, hrel, committed_concat]
    constructor
    · exact fun ⟨hc, hr⟩ => ⟨Or.inl hc, hr⟩
    · rintro ⟨hc | rfl, hr⟩
      · exact ⟨hc, hr⟩
      · exact absurd hr hgrow
  · refine hs.sorted.imp_of_mem fun ht ht' hlt => ?_
    rwa [firstRelease_concat ((hs.mem_iff _).mp ht).2,
      firstRelease_concat ((hs.mem_iff _).mp ht').2]
  · intro pre t post heq l v hr ht
    have hpre : e.txn ∉ pre := fun hp => hnot (heq ▸ List.mem_append_left _ hp)
    rw [valueAfter_append_of_not_mem hpre]
    rcases List.mem_append.mp hr with hr | hr
    · exact hs.reads pre t post heq l v hr ht
    · -- the new event is by a transaction that is not in the order yet
      have hmem : t ∈ order := heq ▸ List.mem_append_right _ List.mem_cons_self
      obtain rfl := List.mem_singleton.mp hr
      exact absurd (show l.txn ∈ order from ht ▸ hmem) hnot
  · intro e₁ e₂ l l' hsub ha ha' hne' hconf hl hl'
    rcases pair_sublist_concat.mp hsub with hsub | ⟨-, rfl⟩
    · exact hs.conflicts e₁ e₂ l l' hsub ha ha' hne' hconf hl hl'
    · have htxn : e₂.txn = l'.txn := by
        cases e₂ <;> simp_all [Event.access, Event.txn]
      exact absurd (htxn ▸ hl') hnot

/-- A release by a transaction that is in the order, or that never commits, leaves it as it is. -/
theorem SerialOrder.unlock (hs : SerialOrder h init order)
    (hold : Committed h l.txn → Released h l.txn) : SerialOrder (h ++ [.unlock l]) init order := by
  have hcom : ∀ t, Committed (h ++ [.unlock l]) t ↔ Committed h t := fun t =>
    committed_concat.trans (or_iff_left nofun)
  refine ⟨hs.nodup, fun t => ?_, ?_, ?_, ?_⟩
  · rw [hs.mem_iff, hcom, released_concat]
    constructor
    · exact fun ⟨hc, hr⟩ => ⟨hc, Or.inl hr⟩
    · rintro ⟨hc, hr | ⟨l', heq, rfl⟩⟩
      · exact ⟨hc, hr⟩
      · obtain rfl := Event.unlock.inj heq
        exact ⟨hc, hold hc⟩
  · refine hs.sorted.imp_of_mem fun ht ht' hlt => ?_
    rwa [firstRelease_concat ((hs.mem_iff _).mp ht).2,
      firstRelease_concat ((hs.mem_iff _).mp ht').2]
  · intro pre t post heq l' v hr ht
    rw [valueAfter_append_of_not_write nofun]
    exact hs.reads pre t post heq l' v (by simpa using hr) ht
  · intro e₁ e₂ l₁ l₂ hsub ha ha' hne' hconf hl hl'
    rcases pair_sublist_concat.mp hsub with hsub | ⟨-, rfl⟩
    · exact hs.conflicts e₁ e₂ l₁ l₂ hsub ha ha' hne' hconf hl hl'
    · cases ha'

/-- The first release of a committed transaction puts it at the end of the order, if what it has
read is what the order leaves, and if its accesses come after the conflicting ones of the others. -/
theorem SerialOrder.release (hs : SerialOrder h init order) (hcom : Committed h l.txn)
    (hfirst : ¬Released h l.txn)
    (hreads : ∀ l' v, .read l' v ∈ h → l'.txn = l.txn → v = valueAfter h init order l'.item)
    (hconf : ∀ e e' l₁ l₂, [e, e'].Sublist h → e.access = some l₁ → e'.access = some l₂ →
      l₁.txn ≠ l₂.txn → ¬Compatible l₁ l₂ → Released h l₁.txn) :
    SerialOrder (h ++ [.unlock l]) init (order ++ [l.txn]) := by
  have hnot : l.txn ∉ order := fun ht => hfirst ((hs.mem_iff _).mp ht).2
  refine ⟨?_, fun t => ?_, ?_, ?_, ?_⟩
  · rw [← List.concat_eq_append, List.nodup_concat]
    exact ⟨hnot, hs.nodup⟩
  · rw [List.mem_append, List.mem_singleton, hs.mem_iff, committed_concat, released_concat]
    constructor
    · rintro (⟨hc, hr⟩ | rfl)
      · exact ⟨Or.inl hc, Or.inl hr⟩
      · exact ⟨Or.inl hcom, Or.inr ⟨l, rfl, rfl⟩⟩
    · rintro ⟨hc | hc, hr | ⟨l', heq, rfl⟩⟩
      · exact Or.inl ⟨hc, hr⟩
      · exact Or.inr (congrArg Lock.txn (Event.unlock.inj heq)).symm
      · cases hc
      · cases hc
  · rw [List.pairwise_append]
    refine ⟨hs.sorted.imp_of_mem fun ht ht' hlt => ?_, List.pairwise_singleton _ _, ?_⟩
    · rwa [firstRelease_concat ((hs.mem_iff _).mp ht).2,
        firstRelease_concat ((hs.mem_iff _).mp ht').2]
    · intro t ht t' ht'
      obtain rfl := List.mem_singleton.mp ht'
      have hr := ((hs.mem_iff t).mp ht).2
      rw [firstRelease_concat hr, firstRelease_concat_self hfirst]
      exact firstRelease_lt hr
  · intro pre t post heq l' v hr ht
    rw [valueAfter_append_of_not_write nofun]
    have hr' : .read l' v ∈ h := by simpa using hr
    rcases List.eq_nil_or_concat post with rfl | ⟨post', t', rfl⟩
    · obtain ⟨rfl, htxn⟩ := List.append_inj' heq rfl
      exact hreads l' v hr' (ht.trans (List.singleton_inj.mp htxn).symm)
    · have heq' : order ++ [l.txn] = (pre ++ t :: post') ++ [t'] := by simpa using heq
      exact hs.reads pre t post' (List.append_inj' heq' rfl).1 l' v hr' ht
  · intro e₁ e₂ l₁ l₂ hsub ha ha' hne hconf' hl₁ hl₂
    rcases pair_sublist_concat.mp hsub with hsub | ⟨-, rfl⟩
    · -- the earlier access is by a transaction that has released, so it is in the order already
      have hrel := hconf e₁ e₂ l₁ l₂ hsub ha ha' hne hconf'
      have hmem₁ : l₁.txn ∈ order := by
        rcases List.mem_append.mp hl₁ with hmem | hmem
        · exact hmem
        · exact absurd (List.mem_singleton.mp hmem ▸ hrel) hfirst
      rcases List.mem_append.mp hl₂ with hmem₂ | hmem₂
      · exact (hs.conflicts e₁ e₂ l₁ l₂ hsub ha ha' hne hconf' hmem₁ hmem₂).trans
          (List.sublist_append_left _ _)
      · exact pair_sublist_concat.mpr (Or.inr ⟨hmem₁, List.mem_singleton.mp hmem₂⟩)
    · cases ha'

end Serial

/-! ### The machine -/

/-- The locks that are held, the values, the committed transactions in the order of their first
release, and what has happened. -/
structure State (τ ι ν : Type*) where
  held : List (Lock τ ι)
  store : ι → ν
  order : List τ
  history : List (Event τ ι ν)

namespace State

/-- No locks, nothing has happened. -/
def init (store : ι → ν) : State τ ι ν := ⟨[], store, [], []⟩

variable [DecidableEq τ] [DecidableEq ι] (a : State τ ι ν)

def lock (l : Lock τ ι) : State τ ι ν :=
  { a with held := l :: a.held, history := a.history ++ [.lock l] }

def read (l : Lock τ ι) (v : ν) : State τ ι ν :=
  { a with history := a.history ++ [.read l v] }

def write (l : Lock τ ι) (v : ν) : State τ ι ν :=
  { a with store := Function.update a.store l.item v, history := a.history ++ [.write l v] }

omit [DecidableEq τ] in
theorem store_write_self (l : Lock τ ι) (v : ν) : (a.write l v).store l.item = v :=
  Function.update_self _ _ _

def commit (t : τ) : State τ ι ν :=
  { a with history := a.history ++ [.commit t] }

def unlock (l : Lock τ ι) (order : List τ) : State τ ι ν :=
  { a with held := a.held.erase l, order := order, history := a.history ++ [.unlock l] }

end State

variable [DecidableEq τ] [DecidableEq ι]

/-- The rules of the protocol. -/
inductive Step (a : State τ ι ν) : State τ ι ν → Prop
  | lock {l : Lock τ ι} (hgrow : ¬Released a.history l.txn) (hfresh : l ∉ a.held)
      (hcompat : ∀ l' ∈ a.held, Compatible l l') : Step a (a.lock l)
  | read {l : Lock τ ι} {v : ν} (hgrow : ¬Released a.history l.txn) (hheld : l ∈ a.held)
      (hexcl : l.excl = false) (hv : v = a.store l.item) : Step a (a.read l v)
  | write {l : Lock τ ι} {v : ν} (hgrow : ¬Released a.history l.txn) (hheld : l ∈ a.held)
      (hexcl : l.excl = true) : Step a (a.write l v)
  | commit {t : τ} (hgrow : ¬Released a.history t) : Step a (a.commit t)
  | release {l : Lock τ ι} (hheld : l ∈ a.held) (hcom : Committed a.history l.txn)
      (hfirst : ¬Released a.history l.txn) : Step a (a.unlock l (a.order ++ [l.txn]))
  | releaseNext {l : Lock τ ι} (hheld : l ∈ a.held) (hcom : Committed a.history l.txn)
      (hrel : Released a.history l.txn) : Step a (a.unlock l a.order)
  | abort {l : Lock τ ι} (hheld : l ∈ a.held) (hcom : ¬Committed a.history l.txn)
      (hwrote : ¬Wrote a.history l.txn) : Step a (a.unlock l a.order)

/-- What holds of every state of the machine. -/
structure Inv (init : ι → ν) (a : State τ ι ν) : Prop where
  nodup : a.held.Nodup
  compat : ∀ l ∈ a.held, ∀ l' ∈ a.held, l ≠ l' → Compatible l l'
  /-- before its first release a transaction holds every lock it has used -/
  access_held : ∀ e ∈ a.history, ∀ l, e.access = some l → ¬Released a.history l.txn → l ∈ a.held
  write_excl : ∀ l v, .write l v ∈ a.history → l.excl = true
  read_shared : ∀ l v, .read l v ∈ a.history → l.excl = false
  /-- what it has read is still there -/
  read_store : ∀ l v, .read l v ∈ a.history → ¬Released a.history l.txn → v = a.store l.item
  store_free : ∀ x, (∀ l ∈ a.held, l.item = x → l.excl = true → l.txn ∈ a.order) →
    a.store x = valueAfter a.history init a.order x
  store_held : ∀ l ∈ a.held, l.excl = true → l.txn ∉ a.order →
    a.store l.item = valueAfter a.history init (a.order ++ [l.txn]) l.item
  conflict_released : ∀ e e' l l', [e, e'].Sublist a.history → e.access = some l →
    e'.access = some l' → l.txn ≠ l'.txn → ¬Compatible l l' → Released a.history l.txn
  serial : SerialOrder a.history init a.order

variable {init : ι → ν} {a a' : State τ ι ν}

theorem inv_init (init : ι → ν) : Inv init (State.init init : State τ ι ν) where
  nodup := List.nodup_nil
  compat := nofun
  access_held := nofun
  write_excl := nofun
  read_shared := nofun
  read_store := nofun
  store_free _ _ := rfl
  store_held := nofun
  conflict_released _ _ _ _ hsub := nomatch List.sublist_nil.mp hsub
  serial := ⟨List.nodup_nil, fun t => ⟨nofun, fun ⟨hc, _⟩ => nomatch hc⟩, List.Pairwise.nil,
    fun pre t post heq => by simp [State.init] at heq,
    fun _ _ _ _ hsub => nomatch List.sublist_nil.mp hsub⟩

namespace Inv

/-- A transaction in the order has released something. -/
theorem released_of_mem (hi : Inv init a) {t : τ} (ht : t ∈ a.order) : Released a.history t :=
  ((hi.serial.mem_iff t).mp ht).2

/-- A transaction that has released nothing holds every item it has written, exclusively. -/
theorem written_held (hi : Inv init a) {t : τ} (hgrow : ¬Released a.history t) {v : ν}
    (hw : .write l v ∈ a.history) (ht : l.txn = t) : l ∈ a.held ∧ l.excl = true :=
  ⟨hi.access_held _ hw l rfl (ht ▸ hgrow), hi.write_excl l v hw⟩

/-- The item of a shared lock has its serial value. -/
theorem store_of_shared (hi : Inv init a) (hl : l ∈ a.held) (hsh : l.excl = false) :
    a.store l.item = valueAfter a.history init a.order l.item := by
  refine hi.store_free l.item fun l' hl' hitem hex => ?_
  have hne : l' ≠ l := by
    rintro rfl
    exact Bool.noConfusion (hsh.symm.trans hex)
  exact absurd (hi.compat l' hl' l hl hne hitem).1 (by simp [hex])

/-- Reading, committing and locking change neither values nor the order. -/
theorem quiet (hi : Inv init a) {e : Event τ ι ν} (hgrow : ¬Released a.history e.txn)
    (hunlock : ∀ l, e ≠ .unlock l) (hwrite : ∀ l v, e ≠ .write l v)
    (hread : ∀ l v, e = .read l v → l ∈ a.held ∧ l.excl = false ∧ v = a.store l.item) :
    Inv init { a with history := a.history ++ [e] } := by
  have hrel : ∀ t, Released (a.history ++ [e]) t ↔ Released a.history t := fun t =>
    released_concat.trans (or_iff_left fun ⟨l, he, _⟩ => hunlock l he)
  have hval : ∀ ts x, valueAfter (a.history ++ [e]) init ts x = valueAfter a.history init ts x :=
    fun _ _ => valueAfter_append_of_not_write hwrite
  -- an access among the events is an old one or a read under a lock that is held
  have hmem : ∀ e' ∈ a.history ++ [e], e' ∈ a.history ∨ e' = e := fun e' he' =>
    (List.mem_append.mp he').imp_right List.mem_singleton.mp
  have hnew : ∀ l, e.access = some l → l ∈ a.held := by
    intro l hacc
    cases e with
    | read l' v => exact Option.some.inj hacc ▸ (hread l' v rfl).1
    | write l' v => exact absurd rfl (hwrite l' v)
    | _ => cases hacc
  refine ⟨hi.nodup, hi.compat, ?_, ?_, ?_, ?_, ?_, ?_, ?_, hi.serial.growing hgrow hunlock⟩
  · intro e' he' l hacc hgrow'
    rcases hmem e' he' with he' | rfl
    · exact hi.access_held e' he' l hacc ((hrel _).not.mp hgrow')
    · exact hnew l hacc
  · intro l v hw
    rcases hmem _ hw with hw | hw
    · exact hi.write_excl l v hw
    · exact absurd hw.symm (hwrite l v)
  · intro l v hr
    rcases hmem _ hr with hr | hr
    · exact hi.read_shared l v hr
    · exact (hread l v hr.symm).2.1
  · intro l v hr hgrow'
    rcases hmem _ hr with hr | hr
    · exact hi.read_store l v hr ((hrel _).not.mp hgrow')
    · exact (hread l v hr.symm).2.2
  · intro x hfree
    rw [hval]
    exact hi.store_free x hfree
  · intro l hl hex hord
    rw [hval]
    exact hi.store_held l hl hex hord
  · intro e₁ e₂ l l' hsub hacc hacc' hne hconf
    rw [hrel]
    rcases pair_sublist_concat.mp hsub with hsub | ⟨he₁, rfl⟩
    · exact hi.conflict_released e₁ e₂ l l' hsub hacc hacc' hne hconf
    · -- without a release both locks would be held together
      by_contra hgrow'
      have hl := hi.access_held e₁ he₁ l hacc hgrow'
      exact hconf (hi.compat l hl l' (hnew l' hacc') fun heq => hne (congrArg Lock.txn heq))

/-- A lock that is compatible with those held is added to them. -/
theorem grant (hi : Inv init a) (hgrow : ¬Released a.history l.txn) (hfresh : l ∉ a.held)
    (hcompat : ∀ l' ∈ a.held, Compatible l l') : Inv init { a with held := l :: a.held } := by
  refine ⟨List.nodup_cons.mpr ⟨hfresh, hi.nodup⟩, ?_, ?_, hi.write_excl, hi.read_shared,
    hi.read_store, ?_, ?_, hi.conflict_released, hi.serial⟩
  · intro l₁ h₁ l₂ h₂ hne
    rcases List.mem_cons.mp h₁ with rfl | h₁' <;> rcases List.mem_cons.mp h₂ with rfl | h₂'
    · exact absurd rfl hne
    · exact hcompat l₂ h₂'
    · exact (hcompat l₁ h₁').symm
    · exact hi.compat l₁ h₁' l₂ h₂' hne
  · intro e he l' hacc hgrow'
    exact List.mem_cons_of_mem _ (hi.access_held e he l' hacc hgrow')
  · intro x hfree
    exact hi.store_free x fun l' hl' => hfree l' (List.mem_cons_of_mem _ hl')
  · intro l' hl' hex hord
    rcases List.mem_cons.mp hl' with rfl | hl'
    · -- nobody holds the item, and the transaction has not written it
      have hother : ∀ l'' ∈ a.held, l''.item ≠ l'.item := fun l'' hl'' hitem =>
        absurd (hcompat l'' hl'' hitem.symm).1 (by simp [hex])
      rw [valueAfter_concat_of_not_written fun l'' v hw ht =>
        hother l'' (hi.written_held hgrow hw ht).1]
      exact hi.store_free _ fun l'' hl'' hitem => absurd hitem (hother l'' hl'')
    · exact hi.store_held l' hl' hex hord

theorem lock (hi : Inv init a) (hgrow : ¬Released a.history l.txn) (hfresh : l ∉ a.held)
    (hcompat : ∀ l' ∈ a.held, Compatible l l') : Inv init (a.lock l) := by
  have hrel : ∀ t, Released (a.history ++ [.lock l]) t ↔ Released a.history t := fun t =>
    released_concat.trans (or_iff_left nofun)
  exact (hi.quiet (e := .lock l) hgrow nofun
    nofun nofun).grant ((hrel _).not.mpr hgrow) hfresh hcompat

/-- A write changes the value of an item that only the writer holds. -/
theorem write (hi : Inv init a) {v : ν} (hgrow : ¬Released a.history l.txn) (hl : l ∈ a.held)
    (hex : l.excl = true) : Inv init (a.write l v) := by
  have hrel : ∀ t, Released (a.history ++ [.write l v]) t ↔ Released a.history t := fun t =>
    released_concat.trans (or_iff_left nofun)
  have hnot : l.txn ∉ a.order := fun ht => hgrow (hi.released_of_mem ht)
  have hval : ∀ x, valueAfter (a.history ++ [.write l v]) init a.order x =
      valueAfter a.history init a.order x := fun _ => valueAfter_append_of_not_mem hnot
  -- any other lock is on another item
  have hitem : ∀ l' ∈ a.held, l' ≠ l → l'.item ≠ l.item := fun l' hl' hne heq =>
    absurd (hi.compat l' hl' l hl hne heq).2 (by simp [hex])
  have hmem : ∀ e ∈ a.history ++ [.write l v], e ∈ a.history ∨ e = .write l v := fun e he =>
    (List.mem_append.mp he).imp_right List.mem_singleton.mp
  refine ⟨hi.nodup, hi.compat, ?_, ?_, ?_, ?_, ?_, ?_, ?_, hi.serial.growing hgrow nofun⟩
  · intro e he l' hacc hgrow'
    rcases hmem e he with he | rfl
    · exact hi.access_held e he l' hacc ((hrel _).not.mp hgrow')
    · exact Option.some.inj hacc ▸ hl
  · intro l' v' hw
    rcases hmem _ hw with hw | hw
    · exact hi.write_excl l' v' hw
    · exact (Event.write.inj hw).1 ▸ hex
  · intro l' v' hr
    rcases hmem _ hr with hr | hr
    · exact hi.read_shared l' v' hr
    · cases hr
  · intro l' v' hr hgrow'
    rcases hmem _ hr with hold | hnew
    · have hgrow'' := (hrel _).not.mp hgrow'
      have hne : l' ≠ l := by
        rintro rfl
        exact Bool.noConfusion ((hi.read_shared l' v' hold).symm.trans hex)
      show v' = Function.update a.store l.item v l'.item
      rw [Function.update_of_ne (hitem l' (hi.access_held _ hold l' rfl hgrow'') hne)]
      exact hi.read_store l' v' hold hgrow''
    · cases hnew
  · intro x hfree
    have hx : x ≠ l.item := fun heq => hnot (hfree l hl heq.symm hex)
    show Function.update a.store l.item v x = _
    rw [Function.update_of_ne hx]
    exact (hi.store_free x hfree).trans (hval x).symm
  · intro l' hl' hex' hord
    show Function.update a.store l.item v l'.item =
      valueAfter (a.history ++ [.write l v]) init (a.order ++ [l'.txn]) l'.item
    rw [valueAfter_concat, hval]
    by_cases heq : l' = l
    · subst heq
      have hrec : record l'.txn l'.item (lastWrite a.history l'.txn l'.item)
          (.write l' v) = some v :=
        if_pos ⟨rfl, rfl⟩
      rw [Function.update_self, lastWrite_concat, hrec]
      rfl
    · have hne := hitem l' hl' heq
      have hrec : record l'.txn l'.item (lastWrite a.history l'.txn l'.item) (.write l v) =
          lastWrite a.history l'.txn l'.item := if_neg fun h => hne h.2.symm
      rw [Function.update_of_ne hne, lastWrite_concat, hrec, ← valueAfter_concat]
      exact hi.store_held l' hl' hex' hord
  · intro e₁ e₂ l₁ l₂ hsub hacc hacc' hne hconf
    rw [State.write, hrel]
    rcases pair_sublist_concat.mp hsub with hsub | ⟨he₁, rfl⟩
    · exact hi.conflict_released e₁ e₂ l₁ l₂ hsub hacc hacc' hne hconf
    · by_contra hgrow'
      have hl₁ := hi.access_held e₁ he₁ l₁ hacc hgrow'
      have hl₂ : l₂ ∈ a.held := Option.some.inj hacc' ▸ hl
      exact hconf (hi.compat l₁ hl₁ l₂ hl₂ fun heq => hne (congrArg Lock.txn heq))

/-- A release, given what the order is afterwards. -/
theorem unlock (hi : Inv init a) {order : List τ}
    (hserial : SerialOrder (a.history ++ [.unlock l]) init order)
    (hfree : ∀ x, (∀ l' ∈ a.held.erase l, l'.item = x → l'.excl = true → l'.txn ∈ order) →
      a.store x = valueAfter a.history init order x)
    (hheld : ∀ l' ∈ a.held.erase l, l'.excl = true → l'.txn ∉ order →
      a.store l'.item = valueAfter a.history init (order ++ [l'.txn]) l'.item) :
    Inv init (a.unlock l order) := by
  have hrel : ∀ {t}, ¬Released (a.history ++ [.unlock l]) t →
      ¬Released a.history t ∧ t ≠ l.txn := by
    intro t ht
    rw [released_concat, not_or] at ht
    exact ⟨ht.1, fun heq => ht.2 ⟨l, rfl, heq.symm⟩⟩
  have hmem : ∀ {e}, e ∈ a.history ++ [.unlock l] → (∀ l', e ≠ .unlock l') → e ∈ a.history := by
    intro e he hne
    rcases List.mem_append.mp he with he | he
    · exact he
    · exact absurd (List.mem_singleton.mp he) (hne l)
  have hval : ∀ ts x, valueAfter (a.history ++ [.unlock l]) init ts x =
      valueAfter a.history init ts x := fun _ _ => valueAfter_append_of_not_write nofun
  refine ⟨hi.nodup.erase l, ?_, ?_, ?_, ?_, ?_, ?_, ?_, ?_, hserial⟩
  · intro l₁ h₁ l₂ h₂ hne
    exact hi.compat l₁ (List.mem_of_mem_erase h₁) l₂ (List.mem_of_mem_erase h₂) hne
  · intro e he l' hacc hgrow
    obtain ⟨hgrow, hne⟩ := hrel hgrow
    have he' := hmem he fun l'' h => by simp [h, Event.access] at hacc
    exact (List.mem_erase_of_ne fun heq => hne (congrArg Lock.txn heq)).mpr
      (hi.access_held e he' l' hacc hgrow)
  · exact fun l' v hw => hi.write_excl l' v (hmem hw nofun)
  · exact fun l' v hr => hi.read_shared l' v (hmem hr nofun)
  · exact fun l' v hr hgrow => hi.read_store l' v (hmem hr nofun) (hrel hgrow).1
  · intro x hx
    exact (hfree x hx).trans (hval _ _).symm
  · intro l' hl' hex hord
    exact (hheld l' hl' hex hord).trans (hval _ _).symm
  · intro e₁ e₂ l₁ l₂ hsub hacc hacc' hne hconf
    rcases pair_sublist_concat.mp hsub with hsub | ⟨-, rfl⟩
    · exact released_concat.mpr
        (Or.inl (hi.conflict_released e₁ e₂ l₁ l₂ hsub hacc hacc' hne hconf))
    · cases hacc'

theorem release (hi : Inv init a) (hcom : Committed a.history l.txn)
    (hfirst : ¬Released a.history l.txn) : Inv init (a.unlock l (a.order ++ [l.txn])) := by
  apply hi.unlock
  · refine hi.serial.release hcom hfirst (fun l' v hr ht => ?_) hi.conflict_released
    have hgrow : ¬Released a.history l'.txn := ht ▸ hfirst
    rw [hi.read_store l' v hr hgrow]
    exact hi.store_of_shared (hi.access_held _ hr l' rfl hgrow) (hi.read_shared l' v hr)
  · intro x hx
    by_cases hown : ∃ l' ∈ a.held, l'.item = x ∧ l'.excl = true ∧ l'.txn = l.txn
    · -- an item the transaction still holds: its own write is the last one
      obtain ⟨l', hl', rfl, hex, ht⟩ := hown
      have hord : l'.txn ∉ a.order := fun hmem => hfirst (ht ▸ hi.released_of_mem hmem)
      exact ht ▸ hi.store_held l' hl' hex hord
    · have hother : ∀ l' ∈ a.held, l'.item = x → l'.excl = true → l'.txn ≠ l.txn :=
        fun l' hl' hitem hex ht => hown ⟨l', hl', hitem, hex, ht⟩
      rw [valueAfter_concat_of_not_written fun l' v hw ht hitem =>
        hother l' (hi.written_held hfirst hw ht).1 hitem (hi.written_held hfirst hw ht).2 ht]
      refine hi.store_free x fun l' hl' hitem hex => ?_
      have hne : l' ≠ l := fun heq => hother l' hl' hitem hex (congrArg Lock.txn heq)
      rcases List.mem_append.mp (hx l' ((List.mem_erase_of_ne hne).mpr hl') hitem hex)
        with hmem | hmem
      · exact hmem
      · exact absurd (List.mem_singleton.mp hmem) (hother l' hl' hitem hex)
  · intro l' hl' hex hord
    have hmem := List.mem_of_mem_erase hl'
    have hne : l'.txn ≠ l.txn := fun heq =>
      hord (List.mem_append_right _ (List.mem_singleton.mpr heq))
    have hskip : valueAfter a.history init (a.order ++ [l.txn]) l'.item =
        valueAfter a.history init a.order l'.item := by
      refine valueAfter_concat_of_not_written fun l'' v hw ht hitem => ?_
      obtain ⟨hl'', hex''⟩ := hi.written_held hfirst hw ht
      have hne' : l'' ≠ l' := fun heq => hne (heq ▸ ht)
      exact absurd (hi.compat l'' hl'' l' hmem hne' hitem).1 (by simp [hex''])
    rw [valueAfter_concat, hskip, ← valueAfter_concat]
    exact hi.store_held l' hmem hex fun h => hord (List.mem_append_left _ h)

theorem releaseNext (hi : Inv init a) (hcom : Committed a.history l.txn)
    (hrel : Released a.history l.txn) : Inv init (a.unlock l a.order) := by
  have hmem : l.txn ∈ a.order := (hi.serial.mem_iff _).mpr ⟨hcom, hrel⟩
  apply hi.unlock
  · exact hi.serial.unlock fun _ => hrel
  · intro x hx
    refine hi.store_free x fun l' hl' hitem hex => ?_
    by_cases heq : l' = l
    · exact heq ▸ hmem
    · exact hx l' ((List.mem_erase_of_ne heq).mpr hl') hitem hex
  · exact fun l' hl' hex hord => hi.store_held l' (List.mem_of_mem_erase hl') hex hord

theorem abort (hi : Inv init a) (hl : l ∈ a.held) (hcom : ¬Committed a.history l.txn)
    (hwrote : ¬Wrote a.history l.txn) : Inv init (a.unlock l a.order) := by
  apply hi.unlock
  · exact hi.serial.unlock fun h => absurd h hcom
  · intro x hx
    by_cases hown : l.item = x ∧ l.excl = true
    · obtain ⟨rfl, hex⟩ := hown
      have hord : l.txn ∉ a.order := fun h => hcom ((hi.serial.mem_iff _).mp h).1
      rw [hi.store_held l hl hex hord]
      exact valueAfter_concat_of_not_written fun l' v hw ht => absurd ⟨l', v, hw, ht⟩ hwrote
    · refine hi.store_free x fun l' hl' hitem hex => ?_
      have hne : l' ≠ l := by
        rintro rfl
        exact hown ⟨hitem, hex⟩
      exact hx l' ((List.mem_erase_of_ne hne).mpr hl') hitem hex
  · exact fun l' hl' hex hord => hi.store_held l' (List.mem_of_mem_erase hl') hex hord

/-- **Every step keeps the invariant**, so the order stays a serial order of the history. -/
theorem step (hi : Inv init a) (hstep : Step a a') : Inv init a' := by
  cases hstep with
  | lock hgrow hfresh hcompat => exact hi.lock hgrow hfresh hcompat
  | @read l v hgrow hheld hexcl hv =>
    refine hi.quiet (e := .read l v) hgrow nofun nofun fun l' v' heq => ?_
    obtain ⟨rfl, rfl⟩ := Event.read.inj heq
    exact ⟨hheld, hexcl, hv⟩
  | write hgrow hheld hexcl => exact hi.write hgrow hheld hexcl
  | @commit t hgrow => exact hi.quiet (e := .commit t) hgrow nofun nofun nofun
  | release _ hcom hfirst => exact hi.release hcom hfirst
  | releaseNext _ hcom hrel => exact hi.releaseNext hcom hrel
  | abort hheld hcom hwrote => exact hi.abort hheld hcom hwrote

end Inv

/-- A transaction that has committed or written nothing can release any lock it holds. -/
theorem exists_unlock (hl : l ∈ a.held) (hok : Committed a.history l.txn ∨ ¬Wrote a.history l.txn) :
    ∃ order, Step a (a.unlock l order) := by
  by_cases hcom : Committed a.history l.txn
  · by_cases hrel : Released a.history l.txn
    · exact ⟨_, .releaseNext hl hcom hrel⟩
    · exact ⟨_, .release hl hcom hrel⟩
  · exact ⟨_, .abort hl hcom (hok.resolve_left hcom)⟩

end P4db.TwoPhase
