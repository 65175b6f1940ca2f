import P4db.Algorithm.Transition
import P4db.Switch.Handle
import Mathlib.Data.List.Nodup
import Mathlib.Data.List.Range

/-!
## Ownership of the blocks

* `handleAlloc_eq`, `handleFree_eq`: under the invariant `Queued` the calls that the tenants may
  make return, and what they do.
* `queued_step`: every call keeps `Queued`.
* `exclusive_ownership`: what holds in every state that the tenants can reach.

`Queued` ties the three structures together: the tenants in a queue are those that were given the
block, the one at the front waits for nobody and was put in the ready set once, and everyone behind
it waits for one tenant and was not put in the ready set yet.
-/

namespace P4db

/-- Metadata of different blocks are never the same to the set of blocks. -/
theorem BlkMeta.cmp_total {x y : BlkMeta} (h : x.blkId ≠ y.blkId) :
    BlkMeta.cmp x y = true ∨ BlkMeta.cmp y x = true := by
  simp only [BlkMeta.cmp]
  split_ifs <;> simp only [decide_eq_true_eq] <;> omega

namespace Handle

/-- The ids in the set of blocks are those of the `N_BLOCKS` blocks, once each. -/
def AllBlocks (blocks : List BlkMeta) : Prop :=
  (blocks.map BlkMeta.blkId).Perm (List.range nBlocks)

section Blocks
variable {blocks : List BlkMeta}

theorem AllBlocks.length (h : AllBlocks blocks) : blocks.length = nBlocks := by
  simpa using h.length_eq

theorem AllBlocks.blkId_lt (h : AllBlocks blocks) {m : BlkMeta} (hm : m ∈ blocks) :
    m.blkId < nBlocks :=
  List.mem_range.mp (h.mem_iff.mp (List.mem_map_of_mem hm))

/-- A block that is taken out, and the others. -/
theorem AllBlocks.eraseIdx (h : AllBlocks blocks) {it : ℕ} {found : BlkMeta}
    (hit : blocks[it]? = some found) :
    (found :: blocks.eraseIdx it).Perm blocks ∧ ∀ y ∈ blocks.eraseIdx it, y.blkId ≠
    found.blkId := by
  obtain ⟨hlt, rfl⟩ := List.getElem?_eq_some_iff.mp hit
  have hperm : (blocks[it] :: blocks.eraseIdx it).Perm blocks := List.getElem_cons_eraseIdx_perm hlt
  have hids : ((blocks[it] :: blocks.eraseIdx it).map BlkMeta.blkId).Nodup :=
    ((hperm.map _).trans h).nodup_iff.mpr List.nodup_range
  rw [List.map_cons, List.nodup_cons] at hids
  exact ⟨hperm, fun y hy heq => hids.1 (heq ▸ List.mem_map_of_mem hy)⟩

/-- It is put back with a new estimate. -/
theorem AllBlocks.perm_insert (h : AllBlocks blocks) {it : ℕ} {found : BlkMeta}
    (hit : blocks[it]? = some found) {new : BlkMeta} (hnew : new.blkId = found.blkId) :
    (SortedSet.insert BlkMeta.cmp new (blocks.eraseIdx it)).Perm (new :: blocks.eraseIdx it) := by
  refine SortedSet.perm_insert fun y hy => BlkMeta.cmp_total ?_
  rw [hnew]
  exact ((h.eraseIdx hit).2 y hy).symm

/-- A block that was taken out is put back with another estimate. -/
theorem AllBlocks.insert (h : AllBlocks blocks) {it : ℕ} {found : BlkMeta}
    (hit : blocks[it]? = some found) {new : BlkMeta} (hnew : new.blkId = found.blkId) :
    AllBlocks (SortedSet.insert BlkMeta.cmp new (blocks.eraseIdx it)) := by
  have hmap := (h.perm_insert hit hnew).map BlkMeta.blkId
  rw [List.map_cons, hnew] at hmap
  exact hmap.trans (((h.eraseIdx hit).1.map _).trans h)

theorem findBlock_lt {h : Handle} (hne : h.blocksSorted ≠ []) (myStartTs : ℕ) :
    h.findBlock myStartTs < h.blocksSorted.length := by
  have hle := SortedSet.upperBound_le BlkMeta.cmp ⟨0, myStartTs⟩ h.blocksSorted
  have hpos := List.length_pos_iff.mpr hne
  unfold findBlock
  dsimp only
  split_ifs <;> omega

end Blocks

/-! ### The invariant -/

/-- The agreement of the structures of the handle, when `block` gives the block of every tenant. -/
structure Queued (h : Handle) (block : ℕ → Option ℕ) : Prop where
  allBlocks : AllBlocks h.blocksSorted
  mem_queue : ∀ {t b}, t ∈ h.blockQueue b ↔ block t = some b
  nodup : ∀ b, (h.blockQueue b).Nodup
  front : ∀ {t b}, (h.blockQueue b).head? = some t → (h.tenantReq t).nWaiting = 0 ∧ h.nReady t = 1
  behind : ∀ {t b}, t ∈ (h.blockQueue b).tail → (h.tenantReq t).nWaiting = 1 ∧ h.nReady t = 0
  idle : ∀ {t}, block t = none → (h.tenantReq t).nWaiting = 0
  valid : ∀ {t b}, block t = some b → t ≠ noTenant ∧ t < nMaxTenants ∧ b < nBlocks

theorem queued_init : Queued init fun _ => none where
  allBlocks := by unfold AllBlocks; decide +kernel
  mem_queue := by simp [init]
  nodup _ := List.nodup_nil
  front := by simp [init]
  behind := by simp [init]
  idle _ := rfl
  valid := nofun

section Calls
variable {h : Handle} {block : ℕ → Option ℕ} {t b : ℕ}

/-- In its queue a tenant is at the front or behind. -/
theorem Queued.front_or_behind (hq : Queued h block) (ht : block t = some b) :
    (h.blockQueue b).head? = some t ∨ t ∈ (h.blockQueue b).tail := by
  have hmem := hq.mem_queue.mpr ht
  cases hb : h.blockQueue b with
  | nil => simp [hb] at hmem
  | cons u q => simpa [hb, eq_comm] using hmem

theorem Queued.nReady_iff (hq : Queued h block) (ht : block t = some b) :
    (1 ≤ h.nReady t ↔ (h.blockQueue b).head? = some t) ∧ h.nReady t ≤ 1 := by
  rcases hq.front_or_behind ht with hfront | hbehind
  · have := hq.front hfront
    exact ⟨⟨fun _ => hfront, fun _ => by omega⟩, by omega⟩
  · have := hq.behind hbehind
    exact ⟨⟨fun _ => by omega, fun hfront => by have := hq.front hfront; omega⟩, by omega⟩

/-- `handle_alloc` returns, and the tenant is in the queue of the block it was given. -/
theorem handleAlloc_eq (hq : Queued h block) (ht : t ≠ noTenant ∧ t < nMaxTenants)
    (hnone : block t = none) (startDelay duration now : ℕ) :
    ∃ b < nBlocks, ∃ blocks, AllBlocks blocks ∧
      h.handleAlloc t startDelay duration now =
        some (b, { (h.start t).enqueue t b with blocksSorted := blocks }) := by
  have hlen := hq.allBlocks.length
  have hne : (h.start t).blocksSorted ≠ [] := by
    intro hnil
    change h.blocksSorted = [] at hnil
    simp [hnil, nBlocks] at hlen
  have hlt := findBlock_lt hne ((now + startDelay) % 2 ^ 64)
  obtain ⟨found, hfound⟩ : ∃ found, (h.start t).blocksSorted[(h.start t).findBlock
      ((now + startDelay) % 2 ^ 64)]? = some found := ⟨_, List.getElem?_eq_getElem hlt⟩
  have hw : ((h.start t).tenantReq t).nWaiting = 0 := by simpa [start] using hq.idle hnone
  have hnew : (newEstimate found ((now + startDelay) % 2 ^ 64)
    ((now + startDelay + duration) % 2 ^ 64)).blkId = found.blkId := rfl
  refine ⟨found.blkId, hq.allBlocks.blkId_lt (List.mem_of_getElem? hfound), _,
    hq.allBlocks.insert hfound hnew, ?_⟩
  unfold handleAlloc
  rw [if_pos ⟨ht.1, ht.2, hlen⟩]
  dsimp only
  rw [hfound]
  dsimp only
  rw [if_pos hw]
  rfl

/-- The handle after the tenant at the front of a queue has left it. -/
def leave (h : Handle) (b : ℕ) : List ℕ → Handle
  | [] => h.setQueue b []
  | next :: q => ((h.setQueue b (next :: q)).setWaiting next 0).notify next

/-- `handle_free` returns, and the next tenant becomes ready. -/
theorem handleFree_eq (hq : Queued h block) (ht : block t = some b) (hready : 1 ≤ h.nReady t) :
    ∃ q, h.blockQueue b = t :: q ∧ h.handleFree t b = some (h.leave b q) := by
  obtain ⟨hne, -, hlt⟩ := hq.valid ht
  obtain ⟨q, hb⟩ := List.head?_eq_some_iff.mp ((hq.nReady_iff ht).1.mp hready)
  refine ⟨q, hb, ?_⟩
  simp only [handleFree, hne, hlt, hb, ne_eq, not_false_eq_true, and_self, if_true]
  cases q with
  | nil => rfl
  | cons next q =>
    have hwait := (hq.behind (t := next) (b := b) (by simp [hb])).1
    simp [leave, promote, setWaiting, setQueue, hwait]

variable (h t b) in
theorem blockQueue_enqueue : ((h.start t).enqueue t b).blockQueue =
    Function.update h.blockQueue b (h.blockQueue b ++ [t]) := by
  unfold enqueue
  dsimp only
  split_ifs <;> rfl

variable (h t b) in
theorem nWaiting_enqueue (u : ℕ) : (((h.start t).enqueue t b).tenantReq u).nWaiting =
    if u = t ∧ h.blockQueue b ≠ [] then 1 else (h.tenantReq u).nWaiting := by
  rcases eq_or_ne u t with rfl | hne <;> by_cases hb : h.blockQueue b = [] <;>
    simp_all [enqueue, start, setWaiting, notify, setQueue]

variable (h t b) in
theorem nReady_enqueue (u : ℕ) : ((h.start t).enqueue t b).nReady u =
    if u = t then if h.blockQueue b = [] then 1 else 0 else h.nReady u := by
  rcases eq_or_ne u t with rfl | hne <;> by_cases hb : h.blockQueue b = [] <;>
    simp_all [enqueue, start, setWaiting, notify, setQueue]

theorem Queued.not_mem (hq : Queued h block) (hnone : block t = none) (c : ℕ) :
    t ∉ h.blockQueue c := by
  rw [hq.mem_queue, hnone]
  exact nofun

/-- A tenant at the front of a queue after `t` has joined one: it was there before, or the queue was
empty. -/
theorem Queued.front_enqueue (hq : Queued h block) (hnone : block t = none) {u c : ℕ} :
    (((h.start t).enqueue t b).blockQueue c).head? = some u →
      (((h.start t).enqueue t b).tenantReq u).nWaiting = 0 ∧
      ((h.start t).enqueue t b).nReady u = 1 := by
  have hfresh := hq.not_mem hnone
  rw [blockQueue_enqueue, nWaiting_enqueue, nReady_enqueue]
  rcases eq_or_ne u t with rfl | hu
  · intro hhead
    have hmem := List.mem_of_head? hhead
    rcases eq_or_ne c b with rfl | hc
    · -- only in an empty queue does a tenant come to the front at once
      cases hqueue : h.blockQueue c with
      | nil => simp [hq.idle hnone]
      | cons v q =>
        simp only [hqueue, Function.update_self, List.cons_append, List.head?_cons,
          Option.some.injEq] at hhead
        exact absurd (by simp [hqueue, hhead]) (hfresh c)
    · exact absurd (by simpa [hc] using hmem) (hfresh c)
  · simp only [hu, false_and, if_false]
    rcases eq_or_ne c b with rfl | hc
    · cases hqueue : h.blockQueue c with
      | nil => simp [Ne.symm hu]
      | cons v q => simpa [hqueue] using hq.front (t := u) (b := c)
    · simpa [hc] using hq.front (t := u) (b := c)

/-- A tenant behind another after `t` has joined a queue. -/
theorem Queued.behind_enqueue (hq : Queued h block) (hnone : block t = none) {u c : ℕ} :
    u ∈ (((h.start t).enqueue t b).blockQueue c).tail →
      (((h.start t).enqueue t b).tenantReq u).nWaiting = 1 ∧
      ((h.start t).enqueue t b).nReady u = 0 := by
  have hfresh := hq.not_mem hnone
  rw [blockQueue_enqueue, nWaiting_enqueue, nReady_enqueue]
  rcases eq_or_ne c b with rfl | hc
  · cases hqueue : h.blockQueue c with
    | nil => simp
    | cons v q =>
      rcases eq_or_ne u t with rfl | hu
      · simp
      · simpa [hqueue, hu] using hq.behind (t := u) (b := c)
  · intro hmem
    simp only [ne_eq, hc, not_false_eq_true, Function.update_of_ne] at hmem
    have hu : u ≠ t := fun heq => hfresh c (heq ▸ List.mem_of_mem_tail hmem)
    simpa [hu] using hq.behind hmem

/-- A tenant joins a queue. -/
theorem queued_enqueue (hq : Queued h block) (ht : t ≠ noTenant ∧ t < nMaxTenants)
    (hnone : block t = none) (hb : b < nBlocks) {blocks : List BlkMeta} (hall : AllBlocks blocks) :
    Queued { (h.start t).enqueue t b with blocksSorted := blocks }
      (Function.update block t (some b)) := by
  have hfresh := hq.not_mem hnone
  constructor
  · exact hall
  · intro u c
    dsimp only
    rw [blockQueue_enqueue]
    rcases eq_or_ne u t with rfl | hu <;> rcases eq_or_ne c b with rfl | hc
    · simp
    · simp [hc, hc.symm, hfresh]
    · simp [hu, hq.mem_queue]
    · simp [hu, hc, hq.mem_queue]
  · intro c
    dsimp only
    rw [blockQueue_enqueue]
    rcases eq_or_ne c b with rfl | hc
    · rw [Function.update_self, ← List.concat_eq_append, List.nodup_concat]
      exact ⟨hfresh c, hq.nodup c⟩
    · simpa [hc] using hq.nodup c
  · exact hq.front_enqueue hnone
  · exact hq.behind_enqueue hnone
  · intro u hu
    dsimp only
    rw [nWaiting_enqueue]
    rcases eq_or_ne u t with rfl | hne
    · simp at hu
    · simpa [hne] using hq.idle (t := u) (by simpa [hne] using hu)
  · intro u c hu
    rcases eq_or_ne u t with rfl | hne
    · simp only [Function.update_self, Option.some.injEq] at hu
      exact ⟨ht.1, ht.2, hu ▸ hb⟩
    · exact hq.valid (by simpa [hne] using hu)

variable (h b) in
theorem blockQueue_leave (q : List ℕ) :
    (h.leave b q).blockQueue = Function.update h.blockQueue b q := by
  cases q <;> rfl

variable (h b) in
theorem nWaiting_leave (q : List ℕ) (u : ℕ) : ((h.leave b q).tenantReq u).nWaiting =
    if q.head? = some u then 0 else (h.tenantReq u).nWaiting := by
  cases q with
  | nil => rfl
  | cons next q =>
    rcases eq_or_ne next u with rfl | hne
    · simp [leave, notify, setWaiting]
    · simp [leave, notify, setWaiting, setQueue, hne, hne.symm]

variable (h b) in
theorem nReady_leave (q : List ℕ) (u : ℕ) : (h.leave b q).nReady u =
    if q.head? = some u then h.nReady u + 1 else h.nReady u := by
  cases q with
  | nil => rfl
  | cons next q =>
    rcases eq_or_ne next u with rfl | hne
    · simp [leave, notify, setWaiting, setQueue]
    · simp [leave, notify, setWaiting, setQueue, hne, hne.symm]

theorem blocksSorted_leave (q : List ℕ) : (h.leave b q).blocksSorted = h.blocksSorted := by
  cases q <;> rfl

/-- A tenant in another queue is not the one that comes to the front. -/
theorem Queued.head?_ne (hq : Queued h block) {q : List ℕ} (hb : h.blockQueue b = t :: q) {u c : ℕ}
    (hc : c ≠ b) (hu : u ∈ h.blockQueue c) : q.head? ≠ some u := by
  have hne : u ∉ h.blockQueue b := by simp [hq.mem_queue, hq.mem_queue.mp hu, hc]
  intro hhead
  rw [hb] at hne
  exact hne (List.mem_cons_of_mem _ (List.mem_of_head? hhead))

/-- A tenant at the front after `t` has left its queue: it was at the front of another, or behind
`t`. -/
theorem Queued.front_leave (hq : Queued h block) {q : List ℕ} (hb : h.blockQueue b = t :: q)
    {u c : ℕ} :
    ((h.leave b q).blockQueue c).head? = some u →
      ((h.leave b q).tenantReq u).nWaiting = 0 ∧ (h.leave b q).nReady u = 1 := by
  rw [blockQueue_leave, nWaiting_leave, nReady_leave]
  rcases eq_or_ne c b with rfl | hc
  · intro hhead
    rw [Function.update_self] at hhead
    have hmem : u ∈ (h.blockQueue c).tail := by simpa [hb] using List.mem_of_head? hhead
    simp [hhead, (hq.behind hmem).2]
  · intro hhead
    rw [Function.update_of_ne hc] at hhead
    have hne := hq.head?_ne hb hc (List.mem_of_head? hhead)
    rw [if_neg hne, if_neg hne]
    exact hq.front hhead

/-- A tenant behind another after `t` has left its queue. -/
theorem Queued.behind_leave (hq : Queued h block) {q : List ℕ} (hb : h.blockQueue b = t :: q)
    {u c : ℕ} :
    u ∈ ((h.leave b q).blockQueue c).tail →
      ((h.leave b q).tenantReq u).nWaiting = 1 ∧ (h.leave b q).nReady u = 0 := by
  have hnodup := hq.nodup b
  rw [hb, List.nodup_cons] at hnodup
  rw [blockQueue_leave, nWaiting_leave, nReady_leave]
  rcases eq_or_ne c b with rfl | hc
  · intro hmem
    rw [Function.update_self] at hmem
    have hne : q.head? ≠ some u := by
      cases q with
      | nil => simp
      | cons next q =>
        have := (List.nodup_cons.mp hnodup.2).1
        intro heq
        rw [List.head?_cons, Option.some.injEq] at heq
        exact this (heq ▸ hmem)
    rw [if_neg hne, if_neg hne]
    exact hq.behind (b := c) (by simpa [hb] using List.mem_of_mem_tail hmem)
  · intro hmem
    rw [Function.update_of_ne hc] at hmem
    have hne := hq.head?_ne hb hc (List.mem_of_mem_tail hmem)
    rw [if_neg hne, if_neg hne]
    exact hq.behind hmem

/-- A tenant leaves the front of its queue. -/
theorem queued_leave (hq : Queued h block) (ht : block t = some b) {q : List ℕ}
    (hb : h.blockQueue b = t :: q) : Queued (h.leave b q) (Function.update block t none) := by
  have hnodup := hq.nodup b
  rw [hb, List.nodup_cons] at hnodup
  constructor
  · rw [blocksSorted_leave]
    exact hq.allBlocks
  · intro u c
    rw [blockQueue_leave]
    have := hq.mem_queue (t := u) (b := c)
    rcases eq_or_ne u t with rfl | hu <;> rcases eq_or_ne c b with rfl | hc
    · simp [hnodup.1]
    · simp [hc, this, ht, hc.symm]
    · simpa [hu, hb] using this
    · simpa [hu, hc] using this
  · intro c
    rw [blockQueue_leave]
    rcases eq_or_ne c b with rfl | hc
    · simpa using hnodup.2
    · simpa [hc] using hq.nodup c
  · exact hq.front_leave hb
  · exact hq.behind_leave hb
  · intro u hu
    rw [nWaiting_leave]
    split_ifs
    · rfl
    · rcases eq_or_ne u t with rfl | hne
      · exact (hq.front (b := b) (by simp [hb])).1
      · exact hq.idle (by simpa [hne] using hu)
  · intro u c hu
    rcases eq_or_ne u t with rfl | hne
    · simp at hu
    · exact hq.valid (by simpa [hne] using hu)

end Calls

end Handle

/-! ### Runs -/

namespace Tenants

variable {s s' : Tenants}

/-- A tenant that may ask for a block gets one. -/
theorem step_alloc (hq : s.handle.Queued s.block) {t : ℕ} (ht : s.MayAlloc t)
    (startDelay duration now : ℕ) : ∃ s', s.step (.alloc t startDelay duration now) = some s' ∧
      s'.handle.Queued s'.block := by
  obtain ⟨b, hb, blocks, hall, heq⟩ := Handle.handleAlloc_eq hq ⟨ht.1, ht.2.1⟩ ht.2.2 startDelay
    duration now
  refine ⟨⟨{ (s.handle.start t).enqueue t b with blocksSorted := blocks },
    Function.update s.block t (some b)⟩, ?_, Handle.queued_enqueue hq ⟨ht.1, ht.2.1⟩ ht.2.2 hb hall⟩
  simp only [step, if_pos ht, heq, Option.map_some]

/-- A tenant that may free its block can do so. -/
theorem step_free (hq : s.handle.Queued s.block) {t b : ℕ} (ht : s.MayFree t b) :
    ∃ s', s.step (.free t b) = some s' ∧ s'.handle.Queued s'.block := by
  obtain ⟨q, hb, heq⟩ := Handle.handleFree_eq hq ht.1 ht.2
  refine ⟨⟨s.handle.leave b q, Function.update s.block t none⟩, ?_, Handle.queued_leave hq ht.1 hb⟩
  simp only [step, if_pos ht, heq, Option.map_some]

theorem queued_step (a : Action) (hq : s.handle.Queued s.block) (hstep : s.step a = some s') :
    s'.handle.Queued s'.block := by
  cases a with
  | alloc t startDelay duration now =>
    by_cases ht : s.MayAlloc t
    · obtain ⟨s'', hs'', hq'⟩ := step_alloc hq ht startDelay duration now
      rw [hs'', Option.some.injEq] at hstep
      exact hstep ▸ hq'
    · simp [step, ht] at hstep
  | free t b =>
    by_cases ht : s.MayFree t b
    · obtain ⟨s'', hs'', hq'⟩ := step_free hq ht
      rw [hs'', Option.some.injEq] at hstep
      exact hstep ▸ hq'
    · simp [step, ht] at hstep
  | eraseReady t =>
    simp only [step, Option.some.injEq] at hstep
    subst hstep
    exact { hq with }

/-- **Exclusive ownership.**  In every state that the tenants reach by calls they may make: the set
of blocks holds every id once, a tenant is in one queue at most and there once, a tenant with a
block has been put in the ready set since it asked for it exactly if it is at the front of the
queue, and once at most, two ready tenants do not have the same block, no counter underflows, and no
call fails. -/
theorem exclusive_ownership {as : List Action} (hrun : Transition.run step init as = some s) :
    (s.handle.blocksSorted.map BlkMeta.blkId).Perm (List.range nBlocks) ∧
    (∀ t b b', t ∈ s.handle.blockQueue b → t ∈ s.handle.blockQueue b' → b = b') ∧
    (∀ b, (s.handle.blockQueue b).Nodup) ∧
    (∀ t b, s.block t = some b →
      (1 ≤ s.handle.nReady t ↔ (s.handle.blockQueue b).head? = some t) ∧ s.handle.nReady t ≤ 1) ∧
    (∀ t t' b, s.block t = some b → s.block t' = some b → 1 ≤ s.handle.nReady t →
      1 ≤ s.handle.nReady t' → t = t') ∧
    (∀ t b next q, s.MayFree t b → s.handle.blockQueue b = t :: next :: q →
      1 ≤ (s.handle.tenantReq next).nWaiting) ∧
    (∀ t startDelay duration now, s.MayAlloc t →
      (s.handle.handleAlloc t startDelay duration now).isSome) ∧
    ∀ t b, s.MayFree t b → (s.handle.handleFree t b).isSome := by
  have hq : s.handle.Queued s.block :=
    Transition.run_invariant (fun s a s' hs hstep => queued_step a hs hstep) Handle.queued_init hrun
  refine ⟨hq.allBlocks, fun t b b' hb hb' => ?_, hq.nodup, fun t b => hq.nReady_iff,
    fun t t' b ht ht' hr hr' => ?_, fun t b next q _ hqueue => ?_, fun t d u now ht => ?_,
      fun t b ht => ?_⟩
  · rw [hq.mem_queue] at hb hb'
    exact Option.some.inj (hb.symm.trans hb')
  · have h := (hq.nReady_iff ht).1.mp hr
    have h' := (hq.nReady_iff ht').1.mp hr'
    exact Option.some.inj (h.symm.trans h')
  · exact (hq.behind (b := b) (by simp [hqueue])).1.ge
  · obtain ⟨b, -, blocks, -, heq⟩ := Handle.handleAlloc_eq hq ⟨ht.1, ht.2.1⟩ ht.2.2 d u now
    simp [heq]
  · obtain ⟨q, -, heq⟩ := Handle.handleFree_eq hq ht.1 ht.2
    simp [heq]

/-- Three tenants ask for a block for no time, so that they all get the same one; the first frees it
and asks again. -/
def oneBlock : List Action :=
  [.alloc 1 0 0 0, .alloc 2 0 0 0, .alloc 3 0 0 0, .eraseReady 1, .free 1 0, .alloc 1 0 0 0]

theorem run_oneBlock : ((Transition.run step init oneBlock).map fun s =>
    decide (s.handle.blockQueue 0 = [2, 3, 1] ∧ s.MayFree 2 0)) = some true := by
  decide +kernel

theorem exclusive_ownership_oneBlock : ∃ s, Transition.run step init oneBlock = some s ∧
    s.handle.blockQueue 0 = [2, 3, 1] ∧ (s.handle.handleFree 2 0).isSome := by
  obtain ⟨s, hrun, hs⟩ := Option.map_eq_some_iff.mp run_oneBlock
  obtain ⟨hqueue, hfree⟩ := of_decide_eq_true hs
  have howner := exclusive_ownership hrun
  exact ⟨s, hrun, hqueue, howner.2.2.2.2.2.2.2 2 0 hfree⟩

end Tenants

end P4db
