import Mathlib.Data.Finset.Card
import Mathlib.Data.List.Sort
import Mathlib.Logic.Function.Basic
import Mathlib.Logic.Relation
import Mathlib.Order.Extension.Linear

/-!
# Search for a cycle

A depth-first search with three colours over a graph that is given by its successor lists.  The
search stops with an error at a vertex that is still being visited.

* `walkAll_spec`: with enough fuel, the search from a list of roots ends; if it succeeds, nothing
  that it visited can be followed forever, and if it fails there is a cycle.
* `walkAll_eq_ok_iff`: if the roots are all vertices with successors, it succeeds exactly if there
  is no cycle.
* `exists_order`: the vertices of a graph without cycles in an order that goes along the edges.
-/

namespace P4db.Dfs

inductive Color
  | unvisited
  | visiting
  | visited
  deriving DecidableEq, Repr

/-- Why a search ends early: a cycle, a root that is being visited, or no fuel. -/
inductive Stop
  | cycle
  | root
  | fuel
  deriving DecidableEq, Repr

section Walk

variable {V : Type*} [DecidableEq V] (next : V → List V)

/-- A vertex is searched if it was not visited; if it is being visited the search stops. -/
def visit (search : (V → Color) → V → Except Stop (V → Color)) (stop : Stop) (colors : V → Color)
    (v : V) : Except Stop (V → Color) :=
  match colors v with
  | .unvisited => search colors v
  | .visiting => .error stop
  | .visited => .ok colors

/-- The search from an unvisited vertex. -/
def walk : ℕ → (V → Color) → V → Except Stop (V → Color)
  | 0, _, _ => .error .fuel
  | fuel + 1, colors, u => do
    let colors ← (next u).foldlM (visit (walk fuel) .cycle) (Function.update colors u .visiting)
    .ok (Function.update colors u .visited)

/-- The search from all roots that are not visited yet. -/
def walkAll (fuel : ℕ) (roots : List V) : Except Stop (V → Color) :=
  roots.foldlM (visit (walk next fuel) .root) fun _ => .unvisited

end Walk

section Spec

variable {V : Type*} {next : V → List V} {colors colors' colors'' : V → Color} {vs : List V}

/-- The graph has a cycle. -/
def Cyclic (next : V → List V) : Prop := ∃ w, Relation.TransGen (fun a b => b ∈ next a) w w

/-- What a successful part of the search has done. -/
structure Done (next : V → List V) (colors colors' : V → Color) (vs : List V) : Prop where
  visiting : ∀ v, colors' v = .visiting ↔ colors v = .visiting
  visited : ∀ v, colors v = .visited → colors' v = .visited
  done : ∀ v ∈ vs, colors' v = .visited
  acc : ∀ v, colors' v = .visited → Acc (fun b a => b ∈ next a) v

/-- The outcome of a part of the search. -/
inductive Right (next : V → List V) (colors : V → Color) (vs : List V) :
    Except Stop (V → Color) → Prop
  | ok {after : V → Color} (h : Done next colors after vs) : Right next colors vs (.ok after)
  | cycle (h : Cyclic next) : Right next colors vs (.error .cycle)

theorem Done.refl (hdone : ∀ v ∈ vs, colors v = .visited)
    (hacc : ∀ v, colors v = .visited → Acc (fun b a => b ∈ next a) v) :
    Done next colors colors vs :=
  ⟨fun _ => Iff.rfl, fun _ h => h, hdone, hacc⟩

theorem Done.trans {v : V} (h : Done next colors colors' [v]) (h' : Done next colors' colors'' vs) :
    Done next colors colors'' (v :: vs) where
  visiting w := (h'.visiting w).trans (h.visiting w)
  visited w hw := h'.visited w (h.visited w hw)
  done w hw := by
    rcases List.mem_cons.mp hw with rfl | hw
    · exact h'.visited w (h.done w List.mem_cons_self)
    · exact h'.done w hw
  acc := h'.acc

/-- What was not visited in the end was not visited before. -/
theorem Done.unvisited (h : Done next colors colors' vs) {v : V} (hv : colors' v = .unvisited) :
    colors v = .unvisited := by
  cases hc : colors v with
  | unvisited => rfl
  | visiting =>
    rw [(h.visiting v).mpr hc] at hv
    exact absurd hv (by simp)
  | visited =>
    rw [h.visited v hc] at hv
    exact absurd hv (by simp)

/-- A loop over vertices, with a condition that the steps keep. -/
theorem right_foldlM {f : (V → Color) → V → Except Stop (V → Color)} {P : (V → Color) → Prop}
    (hkeep : ∀ colors colors' v, P colors → Done next colors colors' [v] → P colors')
    (hf : ∀ colors, ∀ v ∈ vs, P colors → Right next colors [v] (f colors v)) (hP : P colors)
    (hacc : ∀ v, colors v = .visited → Acc (fun b a => b ∈ next a) v) :
    Right next colors vs (vs.foldlM f colors) := by
  induction vs generalizing colors with
  | nil => exact .ok (Done.refl (by simp) hacc)
  | cons v vs ih =>
    rw [List.foldlM_cons]
    generalize hr : f colors v = r
    have hright := hf colors v List.mem_cons_self hP
    rw [hr] at hright
    cases hright with
    | cycle h => exact .cycle h
    | @ok colors' h =>
      show Right next colors (v :: vs) (vs.foldlM f colors')
      generalize hr' : vs.foldlM f colors' = r'
      have hright' := ih (fun colors w hw => hf colors w (List.mem_cons_of_mem v hw))
        (hkeep colors colors' v hP h) h.acc
      rw [hr'] at hright'
      cases hright' with
      | cycle h' => exact .cycle h'
      | ok h' => exact .ok (h.trans h')

variable [DecidableEq V]

/-- The unvisited vertices among `univ`. -/
def fresh (univ : Finset V) (colors : V → Color) : Finset V :=
  univ.filter fun v => colors v = .unvisited

omit [DecidableEq V] in
theorem Done.card_fresh_le (h : Done next colors colors' vs) (univ : Finset V) :
    (fresh univ colors').card ≤ (fresh univ colors).card := by
  apply Finset.card_le_card
  intro v hv
  obtain ⟨hin, hv⟩ := Finset.mem_filter.mp hv
  exact Finset.mem_filter.mpr ⟨hin, h.unvisited hv⟩

theorem card_fresh_update {univ : Finset V} {u : V} (hu : u ∈ univ)
    (hcolor : colors u = .unvisited) :
    (fresh univ (Function.update colors u .visiting)).card < (fresh univ colors).card := by
  apply Finset.card_lt_card
  refine Finset.ssubset_iff_subset_ne.mpr ⟨?_, ?_⟩
  · intro v hv
    obtain ⟨hin, hv⟩ := Finset.mem_filter.mp hv
    refine Finset.mem_filter.mpr ⟨hin, ?_⟩
    by_cases hvu : v = u
    · rw [hvu]
      exact hcolor
    · rwa [Function.update_of_ne hvu] at hv
  · intro heq
    have hmem : u ∈ fresh univ colors := Finset.mem_filter.mpr ⟨hu, hcolor⟩
    rw [← heq] at hmem
    simpa using (Finset.mem_filter.mp hmem).2

/-- When all successors of a vertex are visited, it is visited itself. -/
theorem Done.leave {u : V} (h : Done next (Function.update colors u .visiting) colors' (next u))
    (hcolor : colors u = .unvisited) :
    Done next colors (Function.update colors' u .visited) [u] := by
  constructor
  case visiting =>
    intro v
    by_cases hvu : v = u
    · rw [hvu, Function.update_self, hcolor]
      simp
    · have hold := h.visiting v
      rw [Function.update_of_ne hvu] at hold ⊢
      exact hold
  case visited =>
    intro v hv
    by_cases hvu : v = u
    · rw [hvu, Function.update_self]
    · have hold := h.visited v
      rw [Function.update_of_ne hvu] at hold ⊢
      exact hold hv
  case done =>
    intro v hv
    rw [List.mem_singleton.mp hv, Function.update_self]
  case acc =>
    intro v hv
    by_cases hvu : v = u
    · rw [hvu]
      exact Acc.intro u fun w hw => h.acc w (h.done w hw)
    · rw [Function.update_of_ne hvu] at hv
      exact h.acc v hv

/-- The search from one vertex.  What is being visited leads to it. -/
theorem walk_spec {univ : Finset V} (hclosed : ∀ a, ∀ b ∈ next a, b ∈ univ) {fuel : ℕ} {u : V}
    (hu : u ∈ univ) (hcolor : colors u = .unvisited) (hfuel : (fresh univ colors).card ≤ fuel)
    (hpath : ∀ g, colors g = .visiting → Relation.ReflTransGen (fun a b => b ∈ next a) g u)
    (hacc : ∀ v, colors v = .visited → Acc (fun b a => b ∈ next a) v) :
    Right next colors [u] (walk next fuel colors u) := by
  induction fuel generalizing colors u with
  | zero =>
    have hlt := card_fresh_update hu hcolor
    omega
  | succ fuel ih =>
    have hlt := card_fresh_update hu hcolor
    unfold walk
    generalize hr : (next u).foldlM (visit (walk next fuel) .cycle)
      (Function.update colors u .visiting) = r
    -- the loop over the successors, along which everything being visited leads to `u`
    have hright : Right next (Function.update colors u .visiting) (next u) r := by
      rw [← hr]
      refine right_foldlM (P := fun c => (fresh univ c).card ≤ fuel ∧
        (∀ g, c g = .visiting → Relation.ReflTransGen (fun a b => b ∈ next a) g u) ∧
        ∀ v, c v = .visited → Acc (fun b a => b ∈ next a) v) ?_ ?_ ⟨by omega, ?_, ?_⟩ ?_
      · rintro c c' v ⟨hc, hg, -⟩ hdone
        exact ⟨Nat.le_trans (hdone.card_fresh_le univ) hc,
          fun g hgc => hg g ((hdone.visiting g).mp hgc), hdone.acc⟩
      · rintro c v hv ⟨hc, hg, ha⟩
        unfold visit
        cases hcv : c v with
        | unvisited => exact ih (hclosed u v hv) hcv hc (fun g hgc => (hg g hgc).tail hv) ha
        | visiting => exact .cycle ⟨v, Relation.TransGen.tail' (hg v hcv) hv⟩
        | visited => exact .ok (Done.refl (by simpa using hcv) ha)
      · intro g hg
        by_cases hgu : g = u
        · rw [hgu]
        · rw [Function.update_of_ne hgu] at hg
          exact hpath g hg
      all_goals
        intro v hv
        by_cases hvu : v = u
        · rw [hvu, Function.update_self] at hv
          exact absurd hv (by simp)
        · rw [Function.update_of_ne hvu] at hv
          exact hacc v hv
    cases hright with
    | cycle h => exact .cycle h
    | ok h => exact .ok (h.leave hcolor)

/-- **The search.** -/
theorem walkAll_spec (univ : Finset V) (hclosed : ∀ a, ∀ b ∈ next a, b ∈ univ) {roots : List V}
    (hroots : ∀ v ∈ roots, v ∈ univ) {fuel : ℕ} (hfuel : univ.card ≤ fuel) :
    Right next (fun _ => .unvisited) roots (walkAll next fuel roots) := by
  unfold walkAll
  refine right_foldlM (P := fun c => (fresh univ c).card ≤ fuel ∧ (∀ g, c g ≠ .visiting) ∧
    ∀ v, c v = .visited → Acc (fun b a => b ∈ next a) v) ?_ ?_ ⟨?_, by simp, by simp⟩ (by simp)
  · rintro c c' v ⟨hc, hg, -⟩ hdone
    exact ⟨Nat.le_trans (hdone.card_fresh_le univ) hc,
      fun g hgc => hg g ((hdone.visiting g).mp hgc), hdone.acc⟩
  · rintro c v hv ⟨hc, hg, ha⟩
    unfold visit
    cases hcv : c v with
    | unvisited => exact walk_spec hclosed (hroots v hv) hcv hc (fun g hgc => absurd hgc (hg g)) ha
    | visiting => exact absurd hcv (hg v)
    | visited => exact .ok (Done.refl (by simpa using hcv) ha)
  · exact Nat.le_trans (Finset.card_le_card (Finset.filter_subset _ _)) hfuel

omit [DecidableEq V] in
theorem not_transGen_of_acc {v : V} (h : Acc (fun b a => b ∈ next a) v) :
    ¬Relation.TransGen (fun a b => b ∈ next a) v v := by
  induction h with
  | intro v _ ih =>
    intro hcycle
    obtain ⟨w, hw, hpath⟩ := Relation.TransGen.head'_iff.mp hcycle
    exact ih w hw (Relation.TransGen.tail' hpath hw)

/-- The search from everything that has successors succeeds exactly if there is no cycle. -/
theorem walkAll_eq_ok_iff (univ : Finset V) (hclosed : ∀ a, ∀ b ∈ next a, b ∈ univ) {roots : List V}
    (hroots : ∀ v ∈ roots, v ∈ univ) (hall : ∀ a, next a ≠ [] → a ∈ roots) {fuel : ℕ}
    (hfuel : univ.card ≤ fuel) :
    ((∃ colors, walkAll next fuel roots = .ok colors) ↔ ¬Cyclic next) ∧
      (Cyclic next → walkAll next fuel roots = .error .cycle) := by
  generalize hr : walkAll next fuel roots = r
  have hright := walkAll_spec univ hclosed hroots hfuel
  rw [hr] at hright
  cases hright with
  | cycle h => simp [h]
  | @ok colors h =>
    have hac : ¬Cyclic next := by
      rintro ⟨w, hw⟩
      obtain ⟨x, hx, -⟩ := Relation.TransGen.head'_iff.mp hw
      have hroot : w ∈ roots := hall w (List.ne_nil_of_mem hx)
      exact not_transGen_of_acc (h.acc w (h.done w hroot)) hw
    exact ⟨iff_of_true ⟨colors, rfl⟩ hac, fun hcyc => absurd hcyc hac⟩

end Spec

/-! ### The order of a graph without cycles -/

section Order

variable {V : Type*} [DecidableEq V] {next : V → List V}

/-- The vertices of a list, each behind what it leads to. -/
theorem exists_order (h : ¬Cyclic next) (vs : List V) :
    ∃ order : List V, order.Nodup ∧ (∀ v, v ∈ order ↔ v ∈ vs) ∧
    order.Pairwise fun a b => ¬Relation.ReflTransGen (fun a b => b ∈ next a) a b := by
  classical
  let le : V → V → Prop := fun a b => Relation.ReflTransGen (fun a b => b ∈ next a) b a
  have : IsPartialOrder V le :=
    { refl := fun a => Relation.ReflTransGen.refl
      trans := fun a b c hab hbc => Relation.ReflTransGen.trans hbc hab
      antisymm := by
        intro a b hab hba
        by_contra hne
        rcases Relation.reflTransGen_iff_eq_or_transGen.mp hab with heq | htrans
        · exact hne heq
        · exact h ⟨b, Relation.TransGen.trans_left htrans hba⟩ }
  obtain ⟨s, hs, hle⟩ := extend_partialOrder le
  have hnd : (vs.dedup.insertionSort s).Nodup :=
    (List.perm_insertionSort s _).nodup_iff.mpr (List.nodup_dedup vs)
  refine ⟨vs.dedup.insertionSort s, hnd, fun v => ?_, ?_⟩
  · rw [(List.perm_insertionSort s _).mem_iff, List.mem_dedup]
  · refine ((List.pairwise_insertionSort s _).and hnd).imp ?_
    rintro a b ⟨hab, hne⟩ hpath
    exact hne (antisymm_of s hab (hle b a hpath))

end Order

end P4db.Dfs
