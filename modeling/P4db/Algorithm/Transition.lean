import Mathlib.Data.List.Basic
import Mathlib.Tactic.Common

/-!
# Runs of a transition function

A system is a partial function `step : σ → α → Option σ`: in state `s` the action `a` is enabled
when `step s a` is some state.  `run` plays a list of actions.  Two predicates speak about all of a
run: `OnRun Q` says that every state of it meets `Q`, and `AlongRun P` that every action of it is
taken in a state that allows it by `P`.

* `run_invariant`, `run_invariant_of_along`, `run_invariant_of_onRun`: the induction rules for
  invariants.
* `foldlM_range_spec`: the same for a counting loop that may fail: it returns exactly if every
  iteration can, and then its invariant holds.
* `exists_step_of_run`: a property that comes to hold on a run does so at one of its steps.
* `run_measure`: the rule for bounds, with a measure that some actions lower and others raise on
  credit.
* `exists_run_of_refinement`: runs of a machine whose steps are steps of another one are runs of
  that one.
* `onRun_iff_alongRun`: when, below an invariant, a single step keeps `Q` exactly if it meets `P`,
  a whole run keeps `Q` exactly if all its steps meet `P`.
-/

namespace P4db.Transition

variable {σ α : Type*} (step : σ → α → Option σ)
variable {as l : List α} {s : σ} {I : σ → Prop} {P : σ → α → Prop}

/-- Play the actions in order; `none` if one of them is not enabled. -/
def run : σ → List α → Option σ
  | s, [] => some s
  | s, a :: as => (step s a).bind fun s' => run s' as

/-- Every state of the run, the first and the last included, meets `Q`. -/
def OnRun (Q : σ → Prop) : σ → List α → Prop
  | s, [] => Q s
  | s, a :: as => Q s ∧ ∀ s', step s a = some s' → OnRun Q s' as

/-- Every action of the run meets `P` in the state it is taken in. -/
def AlongRun (P : σ → α → Prop) : σ → List α → Prop
  | _, [] => True
  | s, a :: as => ∀ s', step s a = some s' → P s a ∧ AlongRun P s' as

/-- Every action meets `P` in the state it is tried in, whether it is enabled there or not. -/
def Tried (P : σ → α → Prop) : σ → List α → Prop
  | _, [] => True
  | s, a :: as => P s a ∧ ∀ s', step s a = some s' → Tried P s' as

variable {step}

theorem run_cons_eq_some {t : σ} {a : α} :
    run step s (a :: as) = some t ↔ ∃ s', step s a = some s' ∧ run step s' as = some t := by
  rw [run, Option.bind_eq_some_iff]

theorem alongRun_cons {s' : σ} {a : α} (h : step s a = some s') :
    AlongRun step P s (a :: as) ↔ P s a ∧ AlongRun step P s' as := by
  simp only [AlongRun, h, Option.some.injEq, forall_eq']

instance decidableAlongRun {P : σ → α → Prop} [∀ s a, Decidable (P s a)] :
    ∀ (s : σ) (as : List α), Decidable (AlongRun step P s as)
  | _, [] => isTrue trivial
  | s, a :: as =>
    match h : step s a with
    | none => isTrue fun _ hs => nomatch h.symm.trans hs
    | some s' =>
      have := decidableAlongRun (P := P) s' as
      decidable_of_iff _ (alongRun_cons h).symm

instance decidableTried {P : σ → α → Prop} [∀ s a, Decidable (P s a)] :
    ∀ (s : σ) (as : List α), Decidable (Tried step P s as)
  | _, [] => isTrue trivial
  | s, a :: as =>
    match h : step s a with
    | none =>
      decidable_of_iff (P s a) ⟨fun hP => ⟨hP, fun _ hs => nomatch h.symm.trans hs⟩, fun ht => ht.1⟩
    | some s' =>
      have := decidableTried (P := P) s' as
      decidable_of_iff (P s a ∧ Tried step P s' as)
        (by simp only [Tried, h, Option.some.injEq, forall_eq'])

/-- The induction rule for invariants of runs whose steps all meet `P`. -/
theorem run_invariant_of_along (hstep : ∀ s a s', I s → P s a → step s a = some s' → I s') {t : σ}
    (h0 : I s) (halong : AlongRun step P s as) (hrun : run step s as = some t) : I t := by
  induction as generalizing s with
  | nil => exact Option.some.inj hrun ▸ h0
  | cons a as ih =>
    obtain ⟨s', hs, hrun⟩ := run_cons_eq_some.mp hrun
    obtain ⟨hP, halong⟩ := halong s' hs
    exact ih (hstep s a s' h0 hP hs) halong hrun

theorem AlongRun.imp_of_mem {Q : σ → α → Prop} (h : ∀ s, ∀ a ∈ as, P s a → Q s a)
    (halong : AlongRun step P s as) : AlongRun step Q s as := by
  induction as generalizing s with
  | nil => trivial
  | cons a as ih =>
    intro s' hs
    obtain ⟨hP, halong⟩ := halong s' hs
    exact ⟨h s a List.mem_cons_self hP, ih (fun s a ha => h s a (List.mem_cons_of_mem _ ha)) halong⟩

theorem AlongRun.imp {Q : σ → α → Prop} (h : ∀ s a, P s a → Q s a) (halong : AlongRun step P s as) :
    AlongRun step Q s as :=
  halong.imp_of_mem fun s a _ => h s a

theorem alongRun_of_forall (h : ∀ a ∈ as, ∀ s, P s a) (s : σ) : AlongRun step P s as := by
  induction as generalizing s with
  | nil => trivial
  | cons a as ih =>
    exact fun s' _ => ⟨h a List.mem_cons_self s,
      ih (fun b hb => h b (List.mem_cons_of_mem _ hb)) s'⟩

theorem AlongRun.and {Q : σ → α → Prop} (hP : AlongRun step P s as) (hQ : AlongRun step Q s as) :
    AlongRun step (fun s a => P s a ∧ Q s a) s as := by
  induction as generalizing s with
  | nil => trivial
  | cons a as ih =>
    intro s' hs
    exact ⟨⟨(hP s' hs).1, (hQ s' hs).1⟩, ih (hP s' hs).2 (hQ s' hs).2⟩

theorem AlongRun.append {bs : List α} (h : AlongRun step P s as)
    (h' : ∀ t, run step s as = some t → AlongRun step P t bs) : AlongRun step P s (as ++ bs) := by
  induction as generalizing s with
  | nil => exact h' s rfl
  | cons a as ih =>
    intro s' hs
    obtain ⟨hP, h⟩ := h s' hs
    exact ⟨hP, ih h fun t hrun => h' t (run_cons_eq_some.mpr ⟨s', hs, hrun⟩)⟩

/-- An action of a run is taken in the state that the actions before it lead to. -/
theorem alongRun_of_run (s : σ) (as : List α) : AlongRun step
    (fun t a => ∃ as₁ as₂, as = as₁ ++ a :: as₂ ∧ run step s as₁ = some t) s as := by
  induction as generalizing s with
  | nil => trivial
  | cons a as ih =>
    intro s' hs
    refine ⟨⟨[], as, rfl, rfl⟩, (ih s').imp fun t b => ?_⟩
    rintro ⟨as₁, as₂, rfl, hrun⟩
    exact ⟨a :: as₁, as₂, rfl, run_cons_eq_some.mpr ⟨s', hs, hrun⟩⟩

/-- The induction rule for invariants. -/
theorem run_invariant (hstep : ∀ s a s', I s → step s a = some s' → I s') {t : σ} (h0 : I s)
    (hrun : run step s as = some t) : I t :=
  run_invariant_of_along (P := fun _ _ => True) (fun s a s' hI _ => hstep s a s' hI) h0
    (alongRun_of_forall (fun _ _ _ => trivial) s) hrun

theorem OnRun.head {Q : σ → Prop} (h : OnRun step Q s as) : Q s := by
  cases as with
  | nil => exact h
  | cons a as => exact h.1

/-- The induction rule for invariants of runs whose states all meet `Q`. -/
theorem run_invariant_of_onRun {Q : σ → Prop}
    (hstep : ∀ s a s', I s → Q s' → step s a = some s' → I s') {t : σ} (h0 : I s)
    (hon : OnRun step Q s as) (hrun : run step s as = some t) : I t := by
  induction as generalizing s with
  | nil => exact Option.some.inj hrun ▸ h0
  | cons a as ih =>
    obtain ⟨s', hs, hrun⟩ := run_cons_eq_some.mp hrun
    have hon' := hon.2 s' hs
    exact ih (hstep s a s' h0 hon'.head hs) hon' hrun

/-- The step at which a property comes to hold. -/
theorem exists_step_of_run {P : σ → Prop} {t : σ} (hrun : run step s as = some t) (hs : ¬P s)
    (ht : P t) : ∃ as₁ a as₂ s₁ s₂, as = as₁ ++ a :: as₂ ∧ run step s as₁ = some s₁ ∧
      step s₁ a = some s₂ ∧ run step s₂ as₂ = some t ∧ ¬P s₁ ∧ P s₂ := by
  induction as generalizing s with
  | nil => exact absurd ht (Option.some.inj hrun ▸ hs)
  | cons a as ih =>
    obtain ⟨s', hstep, hrun'⟩ := run_cons_eq_some.mp hrun
    by_cases hP : P s'
    · exact ⟨[], a, as, s, s', rfl, rfl, hstep, hrun', hs, hP⟩
    · obtain ⟨as₁, b, as₂, s₁, s₂, has, h₁, hrest⟩ := ih hrun' hP
      exact ⟨a :: as₁, b, as₂, s₁, s₂, congrArg (a :: ·) has, run_cons_eq_some.mpr ⟨s', hstep, h₁⟩,
        hrest⟩

/-- The rule for bounds.  An action that `counts` lowers the measure; any other may raise it, but
not by more than it adds to the credit. -/
theorem run_measure {measure credit : σ → ℕ} {counts : α → Bool}
    (hinv : ∀ s a s', I s → step s a = some s' → I s')
    (hstep : ∀ s a s', I s → step s a = some s' →
      measure s' + (if counts a then 1 else 0) + credit s ≤ measure s + credit s') {t : σ}
    (h0 : I s) (hrun : run step s as = some t) :
    measure t + as.countP counts + credit s ≤ measure s + credit t := by
  induction as generalizing s with
  | nil =>
    obtain rfl := Option.some.inj hrun
    exact Nat.le_refl _
  | cons a as ih =>
    obtain ⟨s', hs, hrun⟩ := run_cons_eq_some.mp hrun
    have hrest := ih (hinv s a s' h0 hs) hrun
    have hone := hstep s a s' h0 hs
    rw [List.countP_cons]
    omega

theorem onRun_iff_alongRun {Q : σ → Prop} (hstep : ∀ s a s', I s → step s a = some s' → I s')
    (hkeep : ∀ s a s', I s → Q s → step s a = some s' → (Q s' ↔ P s a)) (hI : I s) (hQ : Q s)
    (as : List α) : OnRun step Q s as ↔ AlongRun step P s as := by
  induction as generalizing s with
  | nil => exact ⟨fun _ => trivial, fun _ => hQ⟩
  | cons a as ih =>
    constructor
    · rintro ⟨-, h⟩ s' hs
      have hQ' : Q s' := by
        have := h s' hs
        cases as with
        | nil => exact this
        | cons b bs => exact this.1
      exact ⟨(hkeep s a s' hI hQ hs).mp hQ', (ih (hstep s a s' hI hs) hQ').mp (h s' hs)⟩
    · intro h
      refine ⟨hQ, fun s' hs => ?_⟩
      have hQ' := (hkeep s a s' hI hQ hs).mpr (h s' hs).1
      exact (ih (hstep s a s' hI hs) hQ').mpr (h s' hs).2

/-- The rule for runs that cannot get stuck: where `I` holds and `P` allows an action, it is
enabled, and it keeps `I`.  The invariant may depend on a value that the actions change in their own
way. -/
theorem exists_run_of_tried {γ : Type*} {I : γ → σ → Prop} {g : γ → α → γ} {Q : σ → α → Prop}
    (hstep : ∀ x s a, I x s → P s a → Q s a ∧ ∃ s', step s a = some s' ∧ I (g x a) s') {x : γ}
    (hI : I x s) (htried : Tried step P s as) :
    ∃ t, run step s as = some t ∧ I (as.foldl g x) t ∧ AlongRun step Q s as := by
  induction as generalizing x s with
  | nil => exact ⟨s, rfl, hI, trivial⟩
  | cons a as ih =>
    obtain ⟨hQ, s', hs, hI'⟩ := hstep x s a hI htried.1
    obtain ⟨t, hrun, hIt, halong⟩ := ih hI' (htried.2 s' hs)
    exact ⟨t, run_cons_eq_some.mpr ⟨s', hs, hrun⟩, hIt, (alongRun_cons hs).mpr ⟨hQ, halong⟩⟩

/-- **Refinement.**  If every step of a machine is a step of another machine, seen through `f`, or
nothing there, then so is every run. -/
theorem exists_run_of_refinement {τ β : Type*} {step' : τ → β → Option τ} (f : σ → τ)
    {P' : τ → β → Prop} (hstep : ∀ s a s', I s → P s a → step s a = some s' →
      I s' ∧ (f s' = f s ∨ ∃ b, step' (f s) b = some (f s') ∧ P' (f s) b)) {t : σ} (h0 : I s)
    (halong : AlongRun step P s as) (hrun : run step s as = some t) :
    ∃ bs, run step' (f s) bs = some (f t) ∧ AlongRun step' P' (f s) bs := by
  induction as generalizing s with
  | nil => exact ⟨[], Option.some.inj hrun ▸ rfl, trivial⟩
  | cons a as ih =>
    obtain ⟨s', hs, hrun⟩ := run_cons_eq_some.mp hrun
    obtain ⟨hP, halong⟩ := halong s' hs
    obtain ⟨hI, hf⟩ := hstep s a s' h0 hP hs
    obtain ⟨bs, hbs, hbs'⟩ := ih hI halong hrun
    rcases hf with heq | ⟨b, hb, hP'⟩
    · rw [heq] at hbs hbs'
      exact ⟨bs, hbs, hbs'⟩
    · exact ⟨b :: bs, run_cons_eq_some.mpr ⟨f s', hb, hbs⟩, (alongRun_cons hb).mpr ⟨hP', hbs'⟩⟩

/-- Loops whose bodies agree on the items of the list. -/
theorem foldlM_congr {f g : σ → α → Option σ} (h : ∀ a ∈ l, ∀ s, f s a = g s a) (s : σ) :
    l.foldlM f s = l.foldlM g s := by
  induction l generalizing s with
  | nil => rfl
  | cons a l ih =>
    rw [List.foldlM_cons, List.foldlM_cons, h a List.mem_cons_self]
    congr 1
    funext t
    exact ih (fun b hb => h b (List.mem_cons_of_mem a hb)) t

/-- A loop that translates the entries of a list, in terms of what it does with each of them. -/
theorem mapM_eq_some_iff {β : Type*} {f : α → Option β} {l' : List β} :
    l.mapM f = some l' ↔ l.map f = l'.map some := by
  induction l generalizing l' with
  | nil => cases l' <;> simp
  | cons a l ih =>
    rw [List.mapM_cons]
    simp only [Option.bind_eq_bind, Option.bind_eq_some_iff, Option.pure_def, Option.some.injEq, ih]
    cases l' <;> simp

theorem exists_mapM {β : Type*} {f : α → Option β} (h : ∀ a ∈ l, ∃ b, f a = some b) :
    ∃ l', l.mapM f = some l' := by
  induction l with
  | nil => exact ⟨[], by simp⟩
  | cons a l ih =>
    obtain ⟨b, hb⟩ := h a List.mem_cons_self
    obtain ⟨l', hl'⟩ := ih fun x hx => h x (List.mem_cons_of_mem a hx)
    exact ⟨b :: l', by simp [List.mapM_cons, hb, hl']⟩

/-- The form in which `foldlM_range_spec` takes an iteration, from a proof that it returns. -/
theorem returns_iff {x : Option σ} {ok : Prop} (h : ok → ∃ t, x = some t ∧ I t)
    (h' : ∀ t, x = some t → ok) : ((∃ t, x = some t) ↔ ok) ∧ ∀ t, x = some t → I t := by
  refine ⟨⟨fun ⟨t, ht⟩ => h' t ht, fun hok => ?_⟩, fun t ht => ?_⟩
  · obtain ⟨t, ht, -⟩ := h hok
    exact ⟨t, ht⟩
  · obtain ⟨t', ht', hI⟩ := h (h' t ht)
    rw [ht] at ht'
    exact Option.some.inj ht' ▸ hI

/-- A counting loop with an invariant: iteration `i` returns exactly if `ok i` holds. -/
theorem foldlM_range_spec {f : σ → ℕ → Option σ} {I : ℕ → σ → Prop} {ok : ℕ → Prop} {n : ℕ}
    (h0 : I 0 s) (hstep : ∀ i < n, ∀ t, I i t →
      ((∃ t', f t i = some t') ↔ ok i) ∧ ∀ t', f t i = some t' → I (i + 1) t') :
    ((∃ t, (List.range n).foldlM f s = some t) ↔ ∀ i < n, ok i) ∧
      ∀ t, (List.range n).foldlM f s = some t → I n t := by
  induction n with
  | zero => exact ⟨⟨fun _ => nofun, fun _ => ⟨s, rfl⟩⟩, fun t ht => Option.some.inj ht ▸ h0⟩
  | succ n ih =>
    obtain ⟨hret, hinv⟩ := ih fun i hi => hstep i (Nat.lt_succ_of_lt hi)
    have hsplit : ∀ t', (List.range (n + 1)).foldlM f s = some t' ↔
        ∃ t, (List.range n).foldlM f s = some t ∧ f t n = some t' := by
      intro t'
      rw [List.range_succ, List.foldlM_append, Option.bind_eq_bind, Option.bind_eq_some_iff]
      simp
    simp only [hsplit]
    refine ⟨⟨?_, ?_⟩, ?_⟩
    · rintro ⟨t', t, ht, ht'⟩ i hi
      rcases Nat.lt_succ_iff_lt_or_eq.mp hi with hi | rfl
      · exact hret.mp ⟨t, ht⟩ i hi
      · exact (hstep i hi t (hinv t ht)).1.mp ⟨t', ht'⟩
    · intro hok
      obtain ⟨t, ht⟩ := hret.mpr fun i hi => hok i (Nat.lt_succ_of_lt hi)
      obtain ⟨t', ht'⟩ := (hstep n (Nat.lt_succ_self n) t (hinv t ht)).1.mpr
        (hok n (Nat.lt_succ_self n))
      exact ⟨t', t, ht, ht'⟩
    · rintro t' ⟨t, ht, ht'⟩
      exact (hstep n (Nat.lt_succ_self n) t (hinv t ht)).2 t' ht'

end P4db.Transition
