import Mathlib.Order.Defs.PartialOrder
import P4db.Algorithm.TwoPhase

/-!
# Locks that are handed on by stamps

Every item carries a stamp, and some transactions have a stamp of their own.  Such a transaction
gets the lock on an item only if the stamp of the item precedes its own, and if it has committed it
leaves its own stamp when it releases the lock.  The stamp of an item then only grows, and a
transaction that commits and releases an item precedes every transaction that locks the item later.

`Stamped` says this of a history and the stamps at its end; `Stamped.concat` is the rule for one
more event.
-/

namespace P4db.TwoPhase

variable {τ ι ν σ : Type*} [Preorder σ]

/-- What a history says about the stamps of the items; `Own t x` means that `t` has the stamp
`x`. -/
structure Stamped (h : List (Event τ ι ν)) (Own : τ → σ → Prop) (stamp : ι → σ) : Prop where
  released : ∀ l x, .unlock l ∈ h → Committed h l.txn → Own l.txn x → x ≤ stamp l.item
  granted : ∀ l l' x x', [.unlock l, .lock l'].Sublist h → l.item = l'.item →
    Committed h l.txn → Own l.txn x → Own l'.txn x' → x ≤ x'

namespace Stamped

variable {h : List (Event τ ι ν)} {e : Event τ ι ν} {Own Own' : τ → σ → Prop} {stamp stamp' : ι → σ}

theorem nil : Stamped ([] : List (Event τ ι ν)) Own stamp := ⟨nofun, nofun⟩

/-- A transaction gets a stamp before anything happens under its name. -/
theorem own_mono (hs : Stamped h Own stamp)
    (hnew : ∀ t x, Own' t x → Own t x ∨ ∀ e ∈ h, e.txn ≠ t) : Stamped h Own' stamp where
  released l x hl hc hx := by
    rcases hnew _ _ hx with hx | hno
    · exact hs.released l x hl hc hx
    · exact absurd rfl (hno _ hl)
  granted l l' x x' hsub hitem hc hx hx' := by
    rcases hnew _ _ hx with hx | hno
    · rcases hnew _ _ hx' with hx' | hno
      · exact hs.granted l l' x x' hsub hitem hc hx hx'
      · exact absurd rfl (hno _ (hsub.subset (List.mem_cons_of_mem _ List.mem_cons_self)))
    · exact absurd rfl (hno _ (hsub.subset List.mem_cons_self))

/-- A release before the last event was made by a transaction that committed before it. -/
theorem committed_of_concat {t : τ} (hcommit : ∀ t, e = .commit t → ¬Released h t)
    (hrel : Released h t) (hc : Committed (h ++ [e]) t) : Committed h t := by
  rcases committed_concat.mp hc with hc | heq
  · exact hc
  · exact absurd hrel (hcommit t heq)

/-- **One more event.**  No stamp decreases; a lock is granted to a transaction that the stamp of
the item precedes; nobody commits after a release; and a committed transaction is not after the
stamp it leaves. -/
theorem concat (hs : Stamped h Own stamp) (hmono : ∀ k, stamp k ≤ stamp' k)
    (hlock : ∀ l x, e = .lock l → Own l.txn x → stamp l.item ≤ x)
    (hcommit : ∀ t, e = .commit t → ¬Released h t)
    (hunlock : ∀ l x, e = .unlock l → Committed h l.txn → Own l.txn x → x ≤ stamp' l.item) :
    Stamped (h ++ [e]) Own stamp' where
  released l x hl hc hx := by
    rcases List.mem_append.mp hl with hold | hnew
    · have hc' := committed_of_concat hcommit ⟨l, hold, rfl⟩ hc
      exact le_trans (hs.released l x hold hc' hx) (hmono _)
    · have heq := (List.mem_singleton.mp hnew).symm
      have hc' : Committed h l.txn :=
        (committed_concat.mp hc).resolve_right fun hcom => nomatch heq.symm.trans hcom
      exact hunlock l x heq hc' hx
  granted l l' x x' hsub hitem hc hx hx' := by
    rcases pair_sublist_concat.mp hsub with hold | ⟨hl, heq⟩
    · have hrel : Released h l.txn := ⟨l, hold.subset List.mem_cons_self, rfl⟩
      exact hs.granted l l' x x' hold hitem (committed_of_concat hcommit hrel hc) hx hx'
    · -- the item still has the stamp of the release, or a later one
      have hc' := committed_of_concat hcommit ⟨l, hl, rfl⟩ hc
      calc x ≤ stamp l.item := hs.released l x hl hc' hx
        _ = stamp l'.item := by rw [hitem]
        _ ≤ x' := hlock l' x' heq.symm hx'

end Stamped

end P4db.TwoPhase
