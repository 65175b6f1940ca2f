import Mathlib.Logic.Relation
import P4db.Algorithm.TwoPhase

/-!
# Every lock is taken once and given back once

What the locks and the store of the machine of strict two-phase locking say about its history, and
about two moments of one run of it.

* `Accounted`: a lock is held exactly from its `lock` to its `unlock`, and both happen at most once;
  the store holds what was written under a lock that is still held.
* `store_of_held`: while a lock is held and its transaction writes nothing, the value under it
  stays.
* `frozen_of_released`: after its first release a transaction does nothing but release.
-/

namespace P4db.TwoPhase

variable {τ ι ν : Type*} [DecidableEq τ] [DecidableEq ι] {init : ι → ν}
  {a a' a'' : State τ ι ν} {l : Lock τ ι}

/-! ### Steps -/

theorem Step.mem_history (hstep : Step a a') {e : Event τ ι ν} (he : e ∈ a.history) :
    e ∈ a'.history := by
  cases hstep <;> exact List.mem_append_left _ he

/-- What a step writes or commits, it does for a transaction that has released nothing. -/
theorem Step.growing (hstep : Step a a') {e : Event τ ι ν} (he : e ∈ a'.history)
    (hnot : e ∉ a.history) : ¬Released a.history e.txn ∨ ∃ l ∈ a.held, e = .unlock l := by
  have hlast : ∀ {e'}, e ∈ a.history ++ [e'] → e = e' := fun h =>
    (List.mem_append.mp h).elim (fun h => absurd h hnot) List.mem_singleton.mp
  cases hstep with
  | lock hgrow => exact Or.inl (hlast he ▸ hgrow)
  | read hgrow => exact Or.inl (hlast he ▸ hgrow)
  | write hgrow => exact Or.inl (hlast he ▸ hgrow)
  | commit hgrow => exact Or.inl (hlast he ▸ hgrow)
  | release hheld => exact Or.inr ⟨_, hheld, hlast he⟩
  | releaseNext hheld => exact Or.inr ⟨_, hheld, hlast he⟩
  | abort hheld => exact Or.inr ⟨_, hheld, hlast he⟩

/-- A step leaves the value under a lock alone, unless it writes under that lock. -/
theorem Step.store_eq (hstep : Step a a') (hi : Inv init a) (hl : l ∈ a.held)
    (hw : ∀ v, a' ≠ a.write l v) : a'.store l.item = a.store l.item := by
  cases hstep with
  | @write l' v _ hheld hexcl =>
    have hne : l ≠ l' := fun heq => hw v (heq ▸ rfl)
    refine Function.update_of_ne (fun hitem => ?_) _ _
    exact Bool.noConfusion (hexcl.symm.trans (hi.compat l hl l' hheld hne hitem).2)
  | lock | read | commit | release | releaseNext | abort => rfl

theorem Step.eq_lock (hstep : Step a a') (hhist : a'.history = a.history ++ [.lock l]) :
    a' = a.lock l ∧ ∀ l' ∈ a.held, Compatible l l' := by
  cases hstep with
  | lock _ _ hcompat =>
    obtain rfl := Event.lock.inj (List.append_singleton_inj.mp hhist).2
    exact ⟨rfl, hcompat⟩
  | read | write | commit | release | releaseNext | abort =>
    exact nomatch (List.append_singleton_inj.mp hhist).2

theorem Step.eq_unlock (hstep : Step a a') (hhist : a'.history = a.history ++ [.unlock l]) :
    l ∈ a.held ∧ ∃ order, a' = a.unlock l order := by
  cases hstep with
  | release hheld | releaseNext hheld | abort hheld =>
    obtain rfl := Event.unlock.inj (List.append_singleton_inj.mp hhist).2
    exact ⟨hheld, _, rfl⟩
  | lock | read | write | commit => exact nomatch (List.append_singleton_inj.mp hhist).2

theorem Step.held_of_write (hstep : Step a a') {v : ν}
    (hhist : a'.history = a.history ++ [.write l v]) : l ∈ a.held := by
  cases hstep with
  | write _ hheld =>
    obtain ⟨rfl, -⟩ := Event.write.inj (List.append_singleton_inj.mp hhist).2
    exact hheld
  | lock | read | commit | release | releaseNext | abort =>
    exact nomatch (List.append_singleton_inj.mp hhist).2

/-- Any number of steps. -/
abbrev Steps : State τ ι ν → State τ ι ν → Prop := Relation.ReflTransGen Step

namespace Steps

theorem mem_history (h : Steps a a') {e : Event τ ι ν} (he : e ∈ a.history) : e ∈ a'.history := by
  induction h with
  | refl => exact he
  | tail _ hstep ih => exact hstep.mem_history ih

theorem inv (h : Steps a a') (hi : Inv init a) : Inv init a' := by
  induction h with
  | refl => exact hi
  | tail _ hstep ih => exact ih.step hstep

/-- After its first release a transaction does nothing but release. -/
theorem frozen_of_released (h : Steps a a') {e : Event τ ι ν} (hrel : Released a.history e.txn)
    (he : e ∈ a'.history) (hne : ∀ l, e ≠ .unlock l) : e ∈ a.history := by
  induction h with
  | refl => exact he
  | tail hsteps hstep ih =>
    refine ih ?_
    by_contra hnot
    rcases hstep.growing he hnot with hgrow | ⟨l, -, heq⟩
    · obtain ⟨l, hl, hlt⟩ := hrel
      exact hgrow ⟨l, Steps.mem_history hsteps hl, hlt⟩
    · exact hne l heq

end Steps

/-! ### Locks and values -/

variable [DecidableEq ν]

/-- What the history says about locks and values. -/
structure Accounted (a : State τ ι ν) : Prop where
  lock_le : ∀ l, a.history.count (.lock l) ≤ 1
  unlock_le : ∀ l, a.history.count (.unlock l) ≤ 1
  locked : ∀ l, .unlock l ∈ a.history → .lock l ∈ a.history
  held_iff : ∀ l, l ∈ a.held ↔ .lock l ∈ a.history ∧ .unlock l ∉ a.history
  accessed : ∀ e ∈ a.history, ∀ l, e.access = some l → .lock l ∈ a.history
  store : ∀ l ∈ a.held, ∀ v, .write l v ∈ a.history → (∀ v', .write l v' ∈ a.history → v' = v) →
    a.store l.item = v

theorem accounted_init (init : ι → ν) :
    Accounted (State.init init : State τ ι ν) where
  lock_le _ := Nat.zero_le _
  unlock_le _ := Nat.zero_le _
  locked := nofun
  held_iff _ := ⟨nofun, fun h => nomatch h.1⟩
  accessed := nofun
  store := nofun

namespace Accounted

/-- A transaction that has released nothing has not released a lock it does not hold. -/
theorem not_locked (h : Accounted a) (hgrow : ¬Released a.history l.txn) (hfresh : l ∉ a.held) :
    .lock l ∉ a.history := by
  intro hl
  by_cases hu : .unlock l ∈ a.history
  · exact hgrow ⟨l, hu, rfl⟩
  · exact hfresh ((h.held_iff l).mpr ⟨hl, hu⟩)

/-- What is read or written is locked. -/
theorem accessed_concat (h : Accounted a) {e : Event τ ι ν}
    (hnew : ∀ l, e.access = some l → l ∈ a.held) :
    ∀ e' ∈ a.history ++ [e], ∀ l, e'.access = some l → .lock l ∈ a.history ++ [e] := by
  intro e' he' l hl
  refine List.mem_append_left _ ?_
  rcases List.mem_append.mp he' with he' | he'
  · exact h.accessed e' he' l hl
  · obtain rfl := List.mem_singleton.mp he'
    exact ((h.held_iff l).mp (hnew l hl)).1

/-- One more event that neither takes nor gives back a lock, nor writes. -/
theorem quiet (h : Accounted a) {e : Event τ ι ν} (hlock : ∀ l, e ≠ .lock l)
    (hunlock : ∀ l, e ≠ .unlock l) (hwrite : ∀ l v, e ≠ .write l v)
    (haccess : ∀ l, e.access = some l → l ∈ a.held) :
    Accounted { a with history := a.history ++ [e] } := by
  have hmem : ∀ e', e' ≠ e → (e' ∈ a.history ++ [e] ↔ e' ∈ a.history) := by
    intro e' hne
    simp [hne]
  have hcount : ∀ e', e' ≠ e → (a.history ++ [e]).count e' = a.history.count e' := by
    intro e' hne
    simp [List.count_append, Ne.symm hne]
  refine ⟨fun l => ?_, fun l => ?_, fun l => ?_, fun l => ?_, h.accessed_concat haccess,
    fun l hl v hv hall => ?_⟩
  · exact hcount _ (hlock l).symm ▸ h.lock_le l
  · exact hcount _ (hunlock l).symm ▸ h.unlock_le l
  · rw [hmem _ (hunlock l).symm, hmem _ (hlock l).symm]
    exact h.locked l
  · rw [hmem _ (hunlock l).symm, hmem _ (hlock l).symm]
    exact h.held_iff l
  · rw [hmem _ (hwrite l v).symm] at hv
    exact h.store l hl v hv fun v' hv' => hall v' (List.mem_append_left _ hv')

theorem lock (h : Accounted a) (hi : Inv init a) (hgrow : ¬Released a.history l.txn)
    (hfresh : l ∉ a.held) : Accounted (a.lock l) := by
  have hnew := h.not_locked hgrow hfresh
  refine ⟨fun l' => ?_, fun l' => ?_, fun l' => ?_, fun l' => ?_, h.accessed_concat nofun,
    fun l' hl' v hv hall => ?_⟩
  · show (a.history ++ [Event.lock l]).count (Event.lock l') ≤ 1
    rw [List.count_append, List.count_singleton]
    by_cases heq : l' = l
    · subst heq
      rw [List.count_eq_zero_of_not_mem hnew]
      simp
    · have := h.lock_le l'
      simp [Ne.symm heq]
      exact this
  · show (a.history ++ [Event.lock l]).count (Event.unlock l') ≤ 1
    rw [List.count_append, List.count_singleton]
    simpa using h.unlock_le l'
  · intro hu
    have hu : Event.unlock l' ∈ a.history ++ [Event.lock l] := hu
    exact List.mem_append_left _ (h.locked l' (by simpa using hu))
  · show l' ∈ l :: a.held ↔
      Event.lock l' ∈ a.history ++ [Event.lock l] ∧ Event.unlock l' ∉ a.history ++ [Event.lock l]
    have hself : .unlock l ∉ a.history := fun hu => hnew (h.locked l hu)
    by_cases heq : l' = l
    · subst heq
      simp [hself]
    · simp [heq, h.held_iff l']
  · have hw : .write l' v ∈ a.history := by
      have hv : Event.write l' v ∈ a.history ++ [Event.lock l] := hv
      simpa using hv
    rcases List.mem_cons.mp hl' with rfl | hl'
    · -- nothing is written before the lock is taken
      exact absurd (hi.access_held _ hw _ rfl hgrow) hfresh
    · exact h.store l' hl' v hw fun v' hv' => hall v' (List.mem_append_left _ hv')

theorem write (h : Accounted a) (hi : Inv init a) {v : ν} (hl : l ∈ a.held) (hex : l.excl = true) :
    Accounted (a.write l v) := by
  refine ⟨fun l' => ?_, fun l' => ?_, fun l' hu => ?_, fun l' => ?_,
    h.accessed_concat fun l' hl' => Option.some.inj hl' ▸ hl, fun l' hl' v' hv hall => ?_⟩
  · show (a.history ++ [Event.write l v]).count (Event.lock l') ≤ 1
    simpa [List.count_append, List.count_singleton] using h.lock_le l'
  · show (a.history ++ [Event.write l v]).count (Event.unlock l') ≤ 1
    simpa [List.count_append, List.count_singleton] using h.unlock_le l'
  · have hu : Event.unlock l' ∈ a.history ++ [Event.write l v] := hu
    exact List.mem_append_left _ (h.locked l' (by simpa using hu))
  · show l' ∈ a.held ↔
      Event.lock l' ∈ a.history ++ [Event.write l v] ∧
        Event.unlock l' ∉ a.history ++ [Event.write l v]
    simpa using h.held_iff l'
  · by_cases heq : l' = l
    · subst heq
      rw [a.store_write_self]
      exact hall v (List.mem_append_right _ List.mem_cons_self)
    · -- a lock on the same item would not be held
      have hitem : l'.item ≠ l.item := fun hitem =>
        Bool.noConfusion (hex.symm.trans (hi.compat l' hl' l hl heq hitem).2)
      have hv : .write l' v' ∈ a.history := by
        have hv : Event.write l' v' ∈ a.history ++ [Event.write l v] := hv
        simpa [heq] using hv
      show Function.update a.store l.item v l'.item = v'
      rw [Function.update_of_ne hitem]
      exact h.store l' hl' v' hv fun w hw => hall w (List.mem_append_left _ hw)

theorem unlock (h : Accounted a) (hi : Inv init a) (hl : l ∈ a.held) (order : List τ) :
    Accounted (a.unlock l order) := by
  obtain ⟨hlock, hnot⟩ := (h.held_iff l).mp hl
  refine ⟨fun l' => ?_, fun l' => ?_, fun l' hu => ?_, fun l' => ?_, h.accessed_concat nofun,
    fun l' hl' v hv hall => ?_⟩
  · show (a.history ++ [Event.unlock l]).count (Event.lock l') ≤ 1
    simpa [List.count_append, List.count_singleton] using h.lock_le l'
  · show (a.history ++ [Event.unlock l]).count (Event.unlock l') ≤ 1
    rw [List.count_append, List.count_singleton]
    by_cases heq : l' = l
    · subst heq
      rw [List.count_eq_zero_of_not_mem hnot]
      simp
    · have := h.unlock_le l'
      simp [Ne.symm heq]
      exact this
  · have hu : Event.unlock l' ∈ a.history ++ [Event.unlock l] := hu
    refine List.mem_append_left _ ?_
    by_cases heq : l' = l
    · exact heq ▸ hlock
    · exact h.locked l' (by simpa [heq] using hu)
  · show l' ∈ a.held.erase l ↔
      Event.lock l' ∈ a.history ++ [Event.unlock l] ∧
        Event.unlock l' ∉ a.history ++ [Event.unlock l]
    rw [hi.nodup.mem_erase_iff]
    by_cases heq : l' = l
    · subst heq
      simp
    · simp [heq, h.held_iff l']
  · have hv : .write l' v ∈ a.history := by
      have hv : Event.write l' v ∈ a.history ++ [Event.unlock l] := hv
      simpa using hv
    exact h.store l' (List.mem_of_mem_erase hl') v hv fun v' hv' =>
      hall v' (List.mem_append_left _ hv')

theorem step (h : Accounted a) (hi : Inv init a) (hstep : Step a a') : Accounted a' := by
  cases hstep with
  | lock hgrow hfresh => exact h.lock hi hgrow hfresh
  | @read l v _ hheld =>
    exact h.quiet (e := .read l v) nofun nofun nofun fun l' hl' => Option.some.inj hl' ▸ hheld
  | write _ hheld hexcl => exact h.write hi hheld hexcl
  | @commit t => exact h.quiet (e := .commit t) nofun nofun nofun nofun
  | release hheld => exact h.unlock hi hheld _
  | releaseNext hheld => exact h.unlock hi hheld _
  | abort hheld => exact h.unlock hi hheld _

end Accounted

/-! ### Two moments of a run -/

namespace Steps

theorem accounted (h : Steps a a') (hi : Inv init a) (hacc : Accounted a) : Accounted a' := by
  induction h with
  | refl => exact hacc
  | tail hsteps hstep ih => exact ih.step (Steps.inv hsteps hi) hstep

/-- A lock that is held at both ends is held all the time. -/
theorem held_of_held (h : Steps a a') (h' : Steps a' a'') (hacc : Accounted a)
    (hacc' : Accounted a') (hacc'' : Accounted a'') (hl : l ∈ a.held) (hl'' : l ∈ a''.held) :
    l ∈ a'.held :=
  (hacc'.held_iff l).mpr ⟨h.mem_history ((hacc.held_iff l).mp hl).1, fun hu =>
    ((hacc''.held_iff l).mp hl'').2 (h'.mem_history hu)⟩

/-- While a lock is held and its transaction writes nothing, the value under it stays. -/
theorem store_of_held (h : Steps a a') (hi : Inv init a) (hacc : Accounted a) (hl : l ∈ a.held)
    (hl' : l ∈ a'.held) (hclean : ¬Wrote a'.history l.txn) : a'.store l.item = a.store l.item := by
  induction h with
  | refl => rfl
  | @tail b d hsteps hstep ih =>
    have hlast := Relation.ReflTransGen.single hstep
    have hacc' := Steps.accounted hsteps hi hacc
    have hb : l ∈ b.held :=
      Steps.held_of_held hsteps hlast hacc hacc' (hacc'.step (Steps.inv hsteps hi) hstep) hl hl'
    have hcleanb : ¬Wrote b.history l.txn := fun ⟨l', v, hw, ht⟩ =>
      hclean ⟨l', v, Steps.mem_history hlast hw, ht⟩
    refine (hstep.store_eq (Steps.inv hsteps hi) hb fun v heq => hclean ?_).trans (ih hb hcleanb)
    exact ⟨l, v, heq ▸ List.mem_append_right _ List.mem_cons_self, rfl⟩

end Steps

end P4db.TwoPhase
