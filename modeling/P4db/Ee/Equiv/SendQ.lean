import P4db.Algorithm.Tickets
import P4db.Algorithm.Transition
import P4db.Ee.Equiv.Database

/-!
# The hot send queue between several threads

A call of `alloc_slot` takes a buffer from one counter and an entry from another one, and other
threads may come in between.  Each counter hands out its values in order, whoever asks (`Counted`),
so that buffers and entries are tickets (`Tickets.Account`).  The assertion of `allocate` wants the
end of a buffer below the capacity of the pool, and that of the last buffer is equal to it.

* `counted_step`, `counted_run`: the values of the counters, and which of them fail.
* `accounts_run`: every buffer and every entry is at one thread, or was filled in once.
* `succeeded_iff`: all calls succeed exactly when the pool is not filled to its end, and the 32 bits
  of the tail do not wrap around.
-/

namespace P4db.SharedSendQ

open Transition Tickets

variable {τ : Type} {s s' : SharedSendQ τ}

/-- A step, with where the thread was. -/
inductive Stepped (s : SharedSendQ τ) : AllocStep τ → SharedSendQ τ → Prop
  | allocate {t : ℕ} (h : s.phase t = .idle) (mbNum : ℕ) (txn : τ) :
    Stepped s (.allocate t mbNum txn) (s.allocate t mbNum txn)
  | claim {t mbNum : ℕ} {txn : τ} {buf : ℕ} (h : s.phase t = .allocated mbNum txn buf) :
    Stepped s (.claim t) (s.claim t mbNum txn buf)
  | fill {t mbNum : ℕ} {txn : τ} {buf idx : ℕ} (h : s.phase t = .claimed mbNum txn buf idx) :
    Stepped s (.fill t) (s.fill t mbNum txn buf idx)

theorem stepped_of_step {a : AllocStep τ} (h : s.step a = some s') : Stepped s a s' := by
  cases a with
  | allocate t mbNum txn =>
    cases hphase : s.phase t <;> simp only [step, hphase, reduceCtorEq, Option.some.injEq] at h
    rw [← h]
    exact .allocate hphase mbNum txn
  | claim t =>
    cases hphase : s.phase t <;> simp only [step, hphase, reduceCtorEq, Option.some.injEq] at h
    rw [← h]
    exact .claim hphase
  | fill t =>
    cases hphase : s.phase t <;> simp only [step, hphase, reduceCtorEq, Option.some.injEq] at h
    rw [← h]
    exact .fill hphase

/-- The steps of one call in a row are `HotSendQ.allocSlot`, below the widths of the counters. -/
theorem run_call {t mbNum : ℕ} {txn : τ} {q' : HotSendQ τ} (hidle : s.phase t = .idle)
    (h : s.q.allocSlot mbNum txn = some q') (hcap : s.q.sendQCapacity * hotTxnPktBytes < 2 ^ 64)
    (htail : s.q.sendQTail + 1 < 2 ^ 32) :
    ∃ s', run step s [.allocate t mbNum txn, .claim t, .fill t] = some s' ∧ s'.q = q' := by
  unfold HotSendQ.allocSlot at h
  rw [Option.ite_none_right_eq_some, Option.some.injEq] at h
  obtain ⟨hlt, hq'⟩ := h
  have hsize : (s.q.bufSize + hotTxnPktBytes) % 2 ^ 64 = s.q.bufSize + hotTxnPktBytes :=
    Nat.mod_eq_of_lt (by omega)
  have hpass : (s.q.bufSize + hotTxnPktBytes) % 2 ^ 64 < s.poolCapacity := by
    unfold poolCapacity
    rwa [hsize, Nat.mod_eq_of_lt hcap]
  have h₁ : (s.allocate t mbNum txn).phase t = .allocated mbNum txn s.q.bufSize := by
    unfold allocate
    dsimp only
    rw [Function.update_self, decide_eq_true hpass, if_pos rfl]
  have h₂ : ((s.allocate t mbNum txn).claim t mbNum txn s.q.bufSize).phase t =
      .claimed mbNum txn s.q.bufSize s.q.sendQTail := Function.update_self _ _ _
  refine ⟨((s.allocate t mbNum txn).claim t mbNum txn s.q.bufSize).fill t mbNum txn s.q.bufSize
    s.q.sendQTail, ?_, ?_⟩
  · simp only [run, step, hidle, h₁, h₂, Option.bind_some]
  · rw [← hq', ← hsize]
    show HotSendQ.mk _ ((s.q.sendQTail + 1) % 2 ^ 32) _ _ = _
    rw [Nat.mod_eq_of_lt htail]
    rfl

/-! ### The counters -/

/-- What the counters have handed out. -/
structure Counted (s : SharedSendQ τ) : Prop where
  bufs : s.bufs = (List.range s.bufs.length).map fun i => i * hotTxnPktBytes % 2 ^ 64
  bufSize : s.q.bufSize = s.bufs.length * hotTxnPktBytes % 2 ^ 64
  idxs : s.idxs = (List.range s.idxs.length).map fun i => i % 2 ^ 32
  tail : s.q.sendQTail = s.idxs.length % 2 ^ 32
  failed : (∃ t, s.phase t = .failed) ↔
    ∃ i < s.bufs.length, s.poolCapacity ≤ (i + 1) * hotTxnPktBytes % 2 ^ 64

theorem counted_init (q : HotSendQ τ) : Counted (init q) := by
  constructor <;> simp [init, HotSendQ.doneSending]

/-- A counter that hands out one value more. -/
theorem map_range_append {f : ℕ → ℕ} {l : List ℕ} (h : l = (List.range l.length).map f) {x : ℕ}
    (hx : x = f l.length) : l ++ [x] = (List.range (l ++ [x]).length).map f := by
  rw [List.length_append, List.length_singleton, List.range_succ, List.map_append, ← h, hx]
  rfl

/-- Who has failed after a thread has gone on. -/
theorem exists_failed_update {phase : ℕ → AllocPhase τ} {t : ℕ} (h : phase t ≠ .failed)
    (p : AllocPhase τ) :
    (∃ t', Function.update phase t p t' = .failed) ↔ p = .failed ∨ ∃ t', phase t' = .failed := by
  constructor
  · rintro ⟨t', ht'⟩
    by_cases htt : t' = t
    · subst htt
      rw [Function.update_self] at ht'
      exact .inl ht'
    · rw [Function.update_of_ne htt] at ht'
      exact .inr ⟨t', ht'⟩
  · rintro (rfl | ⟨t', ht'⟩)
    · exact ⟨t, Function.update_self _ _ _⟩
    · have htt : t' ≠ t := fun heq => h (heq ▸ ht')
      exact ⟨t', by rw [Function.update_of_ne htt]; exact ht'⟩

theorem counted_allocate (h : Counted s) {t : ℕ} (hidle : s.phase t = .idle) (mbNum : ℕ) (txn : τ) :
    Counted (s.allocate t mbNum txn) := by
  have hnext : (s.q.bufSize + hotTxnPktBytes) % 2 ^ 64 = (s.bufs.length + 1) * hotTxnPktBytes %
      2 ^ 64 := by
    rw [h.bufSize, Nat.mod_add_mod, Nat.succ_mul]
  have hlen : (s.bufs ++ [s.q.bufSize]).length = s.bufs.length + 1 := by simp
  constructor
  case bufs => exact map_range_append h.bufs h.bufSize
  case bufSize =>
    show (s.q.bufSize + hotTxnPktBytes) % 2 ^ 64 = (s.bufs ++ [s.q.bufSize]).length *
      hotTxnPktBytes % 2 ^ 64
    rw [hnext, hlen]
  case idxs => exact h.idxs
  case tail => exact h.tail
  case failed =>
    show (∃ t', Function.update s.phase t _ t' = .failed) ↔
      ∃ i < (s.bufs ++ [s.q.bufSize]).length, s.poolCapacity ≤ (i + 1) * hotTxnPktBytes % 2 ^ 64
    rw [exists_failed_update (by rw [hidle]; simp), h.failed, hnext, hlen]
    have hnew : (if decide ((s.bufs.length + 1) * hotTxnPktBytes % 2 ^ 64 < s.poolCapacity) =
        true then
        AllocPhase.allocated mbNum txn s.q.bufSize else .failed) = .failed ↔
        s.poolCapacity ≤ (s.bufs.length + 1) * hotTxnPktBytes % 2 ^ 64 := by
      split_ifs with hpass <;> simpa using hpass
    rw [hnew]
    constructor
    · rintro (hlast | ⟨i, hi, hle⟩)
      · exact ⟨s.bufs.length, by omega, hlast⟩
      · exact ⟨i, by omega, hle⟩
    · rintro ⟨i, hi, hle⟩
      rcases Nat.lt_succ_iff_lt_or_eq.mp hi with hi | rfl
      · exact .inr ⟨i, hi, hle⟩
      · exact .inl hle

theorem counted_step (h : Counted s) {a : AllocStep τ} (hs : Stepped s a s') : Counted s' := by
  cases hs with
  | allocate hidle mbNum txn => exact counted_allocate h hidle mbNum txn
  | claim hphase =>
    constructor
    case bufs => exact h.bufs
    case bufSize => exact h.bufSize
    case idxs => exact map_range_append h.idxs h.tail
    case tail =>
      show (s.q.sendQTail + 1) % 2 ^ 32 = (s.idxs ++ [s.q.sendQTail]).length % 2 ^ 32
      rw [List.length_append, List.length_singleton, h.tail, Nat.mod_add_mod]
    case failed =>
      refine (exists_failed_update (by rw [hphase]; simp) _).trans (Iff.trans ?_ h.failed)
      simp
  | fill hphase =>
    refine ⟨h.bufs, h.bufSize, h.idxs, h.tail, ?_⟩
    refine (exists_failed_update (by rw [hphase]; simp) _).trans (Iff.trans ?_ h.failed)
    simp

/-! ### The accounts -/

/-- The buffer that a thread holds. -/
def bufOf : AllocPhase τ → Option ℕ
  | .allocated _ _ buf => some buf
  | .claimed _ _ buf _ => some buf
  | _ => none

/-- The entry that a thread holds. -/
def idxOf : AllocPhase τ → Option ℕ
  | .claimed _ _ _ idx => some idx
  | _ => none

/-- What became of the buffers and the entries. -/
structure Accounts (s : SharedSendQ τ) : Prop where
  bufs : Account s.bufs (bufOf ∘ s.phase) (s.filled.map fun p => p.1.iovBase)
  idxs : Account s.idxs (idxOf ∘ s.phase) (s.filled.map Prod.snd)
  filled : ∀ p ∈ s.filled, s.q.sendQ p.2 = p.1

/-- No call has failed, and no counter has handed out a value twice. -/
structure Unique (s : SharedSendQ τ) : Prop where
  ok : ∀ t, s.phase t ≠ .failed
  bufs : s.bufs.Nodup
  idxs : s.idxs.Nodup

theorem accounts_init (q : HotSendQ τ) : Accounts (init q) :=
  ⟨account_nil, account_nil, by simp [init]⟩

theorem ok_of_update {phase : ℕ → AllocPhase τ} {t : ℕ} {p : AllocPhase τ}
    (hphase : phase t ≠ .failed) (h : ∀ t', Function.update phase t p t' ≠ .failed) :
    p ≠ .failed ∧ ∀ t', phase t' ≠ .failed := by
  have hiff := exists_failed_update hphase p
  constructor
  · intro hp
    obtain ⟨t', ht'⟩ := hiff.mpr (.inl hp)
    exact h t' ht'
  · intro t' ht'
    obtain ⟨t'', ht''⟩ := hiff.mpr (.inr ⟨t', ht'⟩)
    exact h t'' ht''

theorem accounts_step (h : Unique s → Accounts s) {a : AllocStep τ} (hs : Stepped s a s') :
    Unique s' → Accounts s' := by
  intro hu
  cases hs with
  | @allocate t hidle mbNum txn =>
    have hbufs : (s.bufs ++ [s.q.bufSize]).Nodup := hu.bufs
    rw [List.nodup_append] at hbufs
    obtain ⟨hp, hok⟩ := ok_of_update (by rw [hidle]; simp) hu.ok
    obtain ⟨hb, hi, hf⟩ := h ⟨hok, hbufs.1, hu.idxs⟩
    have hnew : s.q.bufSize ∉ s.bufs := fun hmem => hbufs.2.2 _ hmem _ List.mem_cons_self rfl
    -- the assertion holds, for otherwise the thread would have failed
    split_ifs at hp with hpass
    · refine ⟨?_, ?_, hf⟩
      · show Account _ (bufOf ∘ Function.update s.phase t _) _
        rw [Function.comp_update, if_pos hpass]
        exact hb.take (by simp [hidle, bufOf]) hnew
      · show Account _ (idxOf ∘ Function.update s.phase t _) _
        rw [Function.comp_update, if_pos hpass]
        exact hi.keep (by simp [hidle, idxOf])
    · exact absurd rfl hp
  | @claim t mbNum txn buf hphase =>
    have hidxs : (s.idxs ++ [s.q.sendQTail]).Nodup := hu.idxs
    rw [List.nodup_append] at hidxs
    obtain ⟨-, hok⟩ := ok_of_update (by rw [hphase]; simp) hu.ok
    obtain ⟨hb, hi, hf⟩ := h ⟨hok, hu.bufs, hidxs.1⟩
    refine ⟨?_, ?_, hf⟩
    · show Account _ (bufOf ∘ Function.update s.phase t _) _
      rw [Function.comp_update]
      exact hb.keep (by simp [hphase, bufOf])
    · show Account _ (idxOf ∘ Function.update s.phase t _) _
      rw [Function.comp_update]
      exact hi.take (by simp [hphase, idxOf]) fun hmem => hidxs.2.2 _ hmem _ List.mem_cons_self rfl
  | @fill t mbNum txn buf idx hphase =>
    obtain ⟨-, hok⟩ := ok_of_update (by rw [hphase]; simp) hu.ok
    obtain ⟨hb, hi, hf⟩ := h ⟨hok, hu.bufs, hu.idxs⟩
    have hhold : (idxOf ∘ s.phase) t = some idx := by simp [hphase, idxOf]
    refine ⟨?_, ?_, ?_⟩
    · show Account _ (bufOf ∘ Function.update s.phase t _) ((s.filled ++ [_]).map _)
      rw [Function.comp_update, List.map_append]
      exact hb.use (by simp [hphase, bufOf])
    · show Account _ (idxOf ∘ Function.update s.phase t _) ((s.filled ++ [_]).map _)
      rw [Function.comp_update, List.map_append]
      exact hi.use hhold
    · intro p hp
      rcases List.mem_append.mp hp with hp | hp
      · -- an entry that was filled is not held any more
        have hne : p.2 ≠ idx := fun heq => hi.hold_unused t idx hhold (heq ▸ List.mem_map_of_mem hp)
        show Function.update s.q.sendQ idx _ p.2 = p.1
        rw [Function.update_of_ne hne]
        exact hf p hp
      · rw [List.mem_singleton.mp hp]
        exact Function.update_self _ _ _

/-! ### Whole runs -/

/-- All calls so far succeeded: no assertion has failed, the buffers are disjoint ranges of the
pool, the entries are the first ones of the array and hold what the calls put in; between the calls
every buffer and every entry belongs to one of them. -/
structure Succeeded (s : SharedSendQ τ) : Prop where
  ok : ∀ t, s.phase t ≠ .failed
  inside : ∀ b ∈ s.bufs, b + hotTxnPktBytes ≤ s.poolCapacity
  disjoint : s.bufs.Pairwise fun a b => a + hotTxnPktBytes ≤ b ∨ b + hotTxnPktBytes ≤ a
  entries : s.idxs = List.range s.idxs.length
  filled : ∀ p ∈ s.filled, s.q.sendQ p.2 = p.1
  bufs_once : (∀ t, s.phase t = .idle) → (s.filled.map fun p => p.1.iovBase).Perm s.bufs
  idxs_once : (∀ t, s.phase t = .idle) → (s.filled.map Prod.snd).Perm s.idxs

/-- The pool is not filled to its end, and the tail has not wrapped around. -/
def Room (s : SharedSendQ τ) : Prop :=
  (s.bufs = [] ∨ s.bufs.length * hotTxnPktBytes < s.poolCapacity) ∧ s.idxs.length ≤ 2 ^ 32

theorem poolCapacity_lt (s : SharedSendQ τ) : s.poolCapacity < 2 ^ 64 := Nat.mod_lt _ (by decide)

theorem Counted.mem_bufs (h : Counted s) {b : ℕ} :
    b ∈ s.bufs ↔ ∃ i < s.bufs.length, i * hotTxnPktBytes % 2 ^ 64 = b := by
  conv_lhs => rw [h.bufs]
  simp only [List.mem_map, List.mem_range]

/-- As long as the buffers stay in the pool, their addresses do not wrap around. -/
theorem Counted.mul_le (h : Counted s)
    (hinside : ∀ b ∈ s.bufs, b + hotTxnPktBytes ≤ s.poolCapacity) :
    ∀ i ≤ s.bufs.length, i * hotTxnPktBytes ≤ s.poolCapacity := by
  intro i
  induction i with
  | zero => omega
  | succ i ih =>
    intro hi
    have hle := ih (by omega)
    have hb := hinside _ (h.mem_bufs.mpr ⟨i, hi, rfl⟩)
    rw [Nat.mod_eq_of_lt (Nat.lt_of_le_of_lt hle s.poolCapacity_lt)] at hb
    rw [Nat.succ_mul]
    exact hb

theorem room_of_succeeded (h : Counted s) (hs : Succeeded s) : Room s := by
  constructor
  · by_cases hnil : s.bufs = []
    · exact .inl hnil
    · right
      have hpos := List.length_pos_iff.mpr hnil
      have hle := h.mul_le hs.inside s.bufs.length (Nat.le_refl _)
      -- the last assertion
      have hlast : ¬s.poolCapacity ≤ (s.bufs.length - 1 + 1) * hotTxnPktBytes % 2 ^ 64 := by
        intro hfail
        obtain ⟨t, ht⟩ := h.failed.mpr ⟨_, Nat.sub_lt hpos Nat.one_pos, hfail⟩
        exact hs.ok t ht
      rw [Nat.sub_add_cancel hpos,
        Nat.mod_eq_of_lt (Nat.lt_of_le_of_lt hle s.poolCapacity_lt)] at hlast
      exact Nat.lt_of_not_le hlast
  · by_contra hlt
    have hsame := h.idxs.symm.trans hs.entries
    have hget := congrArg (fun l => l[2 ^ 32]?) hsame
    simp only [List.getElem?_map] at hget
    rw [List.getElem?_range (by omega), Option.map_some, Nat.mod_self] at hget
    exact absurd (Option.some.inj hget) (by decide)

theorem mul_lt_of_room (hroom : Room s) {i : ℕ} (hi : i ≤ s.bufs.length) (hne : s.bufs ≠ []) :
    i * hotTxnPktBytes < s.poolCapacity :=
  Nat.lt_of_le_of_lt (Nat.mul_le_mul_right _ hi) (hroom.1.resolve_left hne)

section Room

variable (h : Counted s) (hroom : Room s)
include h hroom

theorem bufs_eq_of_room : s.bufs = (List.range s.bufs.length).map fun i => i * hotTxnPktBytes := by
  conv_lhs => rw [h.bufs]
  apply List.map_congr_left
  intro i hi
  rw [List.mem_range] at hi
  have hne : s.bufs ≠ [] := List.length_pos_iff.mp (by omega)
  exact Nat.mod_eq_of_lt (Nat.lt_trans (mul_lt_of_room hroom (Nat.le_of_lt hi) hne)
    s.poolCapacity_lt)

theorem idxs_eq_of_room : s.idxs = List.range s.idxs.length := by
  conv_lhs => rw [h.idxs]
  conv_rhs => rw [← List.map_id (List.range s.idxs.length)]
  apply List.map_congr_left
  intro i hi
  rw [List.mem_range] at hi
  exact Nat.mod_eq_of_lt (Nat.lt_of_lt_of_le hi hroom.2)

theorem ok_of_room (t : ℕ) : s.phase t ≠ .failed := by
  intro ht
  obtain ⟨i, hi, hfail⟩ := h.failed.mp ⟨t, ht⟩
  have hne : s.bufs ≠ [] := List.length_pos_iff.mp (by omega)
  have hlt := mul_lt_of_room hroom hi hne
  rw [Nat.mod_eq_of_lt (Nat.lt_trans hlt s.poolCapacity_lt)] at hfail
  omega

theorem disjoint_of_room :
    s.bufs.Pairwise fun a b => a + hotTxnPktBytes ≤ b ∨ b + hotTxnPktBytes ≤ a := by
  rw [bufs_eq_of_room h hroom, List.pairwise_map]
  refine List.pairwise_lt_range.imp fun {i j} hij => .inl ?_
  rw [← Nat.succ_mul]
  exact Nat.mul_le_mul_right _ hij

theorem unique_of_room : Unique s := by
  refine ⟨ok_of_room h hroom, ?_, ?_⟩
  · refine (disjoint_of_room h hroom).imp fun {a b} hab heq => ?_
    have hpos : 0 < hotTxnPktBytes := by decide
    omega
  · rw [idxs_eq_of_room h hroom]
    exact List.nodup_range

theorem succeeded_of_room (haccounts : Unique s → Accounts s) : Succeeded s := by
  have hunique := unique_of_room h hroom
  obtain ⟨hbufs, hidxs, hfilled⟩ := haccounts hunique
  constructor
  case ok => exact hunique.ok
  case inside =>
    intro b hb
    have hne : s.bufs ≠ [] := List.ne_nil_of_mem hb
    rw [bufs_eq_of_room h hroom] at hb
    obtain ⟨i, hi, rfl⟩ := List.mem_map.mp hb
    rw [← Nat.succ_mul]
    exact Nat.le_of_lt (mul_lt_of_room hroom (List.mem_range.mp hi) hne)
  case disjoint => exact disjoint_of_room h hroom
  case entries => exact idxs_eq_of_room h hroom
  case filled => exact hfilled
  case bufs_once => exact fun hidle => hbufs.perm hunique.bufs fun t => by simp [hidle t, bufOf]
  case idxs_once => exact fun hidle => hidxs.perm hunique.idxs fun t => by simp [hidle t, idxOf]

end Room

/-- A call of `alloc_slot` begins. -/
def isCall : AllocStep τ → Bool
  | .allocate _ _ _ => true
  | _ => false

/-- An entry is claimed. -/
def isClaim : AllocStep τ → Bool
  | .claim _ => true
  | _ => false

theorem length_run {as : List (AllocStep τ)} (hrun : run step s as = some s') :
    s'.bufs.length = s.bufs.length + as.countP isCall ∧
      s'.idxs.length = s.idxs.length + as.countP isClaim := by
  induction as generalizing s with
  | nil =>
    rw [← Option.some.inj hrun]
    simp
  | cons a as ih =>
    obtain ⟨s₁, hs, hrun⟩ := run_cons_eq_some.mp hrun
    rw [(ih hrun).1, (ih hrun).2, List.countP_cons, List.countP_cons]
    cases stepped_of_step hs <;> simp [allocate, claim, fill, isCall, isClaim]
    all_goals omega

theorem run_spec {q : HotSendQ τ} {as : List (AllocStep τ)} (hrun : run step (init q) as = some s) :
    Counted s ∧ (Unique s → Accounts s) ∧ s.q.sendQCapacity = q.sendQCapacity := by
  refine run_invariant (I := fun s => Counted s ∧ (Unique s → Accounts s) ∧
    s.q.sendQCapacity = q.sendQCapacity) ?_ ⟨counted_init q, fun _ => accounts_init q, rfl⟩ hrun
  rintro s a s' ⟨hcounted, haccounts, hcap⟩ hs
  have hstepped := stepped_of_step hs
  refine ⟨counted_step hcounted hstepped, accounts_step haccounts hstepped, ?_⟩
  rw [← hcap]
  cases hstepped <;> rfl

/-- **The hot send queue.**  For every capacity and every interleaving of `alloc_slot` calls since
`done_sending`: they all succeed, with disjoint buffers inside the pool and with entries from the
first one on, exactly when the bytes of all buffers are fewer than those of the pool (or there is no
call), and the claims of entries can be counted in 32 bits. -/
theorem succeeded_iff {q : HotSendQ τ} {as : List (AllocStep τ)}
    (hrun : run step (init q) as = some s) :
    Succeeded s ↔ (as.countP isCall = 0 ∨
      as.countP isCall * hotTxnPktBytes < q.sendQCapacity * hotTxnPktBytes % 2 ^ 64) ∧
        as.countP isClaim ≤ 2 ^ 32 := by
  obtain ⟨hcounted, haccounts, hcap⟩ := run_spec hrun
  obtain ⟨hcalls, hclaims⟩ : s.bufs.length = as.countP isCall ∧
      s.idxs.length = as.countP isClaim := by
    simpa [init] using length_run hrun
  have hroom : Room s ↔ (as.countP isCall = 0 ∨
      as.countP isCall * hotTxnPktBytes < q.sendQCapacity * hotTxnPktBytes % 2 ^ 64) ∧
        as.countP isClaim ≤ 2 ^ 32 := by
    unfold Room poolCapacity
    rw [← hcalls, ← hclaims, ← hcap, List.length_eq_zero_iff]
  rw [← hroom]
  exact ⟨room_of_succeeded hcounted, fun h => succeeded_of_room hcounted h haccounts⟩

/-- A queue for `c` transactions, numbered by natural numbers. -/
def queueOf (c : ℕ) : HotSendQ ℕ := ⟨fun _ => ⟨0, 0, 0, 0⟩, 0, c, 0⟩

/-- Two threads, the second of which overtakes the first. -/
def overtaking : List (AllocStep ℕ) :=
  [.allocate 0 1 10, .allocate 1 1 11, .claim 1, .claim 0, .fill 0, .fill 1]

/-- Two calls on a queue for three. -/
theorem succeeded_overtaking : ∃ s, run step (init (queueOf 3)) overtaking = some s ∧ Succeeded s ∧
    s.q.sendQ 0 = ⟨11, 1, 440, 440⟩ ∧ s.q.sendQ 1 = ⟨10, 1, 0, 440⟩ := by
  have hval : (run step (init (queueOf 3)) overtaking).map (fun s => (s.q.sendQ 0, s.q.sendQ 1)) =
      some (⟨11, 1, 440, 440⟩, ⟨10, 1, 0, 440⟩) := by decide +kernel
  obtain ⟨s, hrun, hs⟩ := Option.map_eq_some_iff.mp hval
  obtain ⟨h0, h1⟩ := Prod.mk.inj hs
  exact ⟨s, hrun, (succeeded_iff hrun).mpr ⟨.inr (by decide +kernel), by decide +kernel⟩, h0, h1⟩

/-- The same two calls would fill a queue for two, and the second one fails. -/
theorem not_succeeded_full :
    ∃ s, run step (init (queueOf 2)) [.allocate 0 1 10, .allocate 1 1 11] = some s ∧
    s.phase 0 = .allocated 1 10 0 ∧ s.phase 1 = .failed ∧ ¬Succeeded s := by
  have hval : (run step (init (queueOf 2)) [.allocate 0 1 10, .allocate 1 1 11]).map
      (fun s => (s.phase 0, s.phase 1)) = some (.allocated 1 10 0, .failed) := by decide +kernel
  obtain ⟨s, hrun, hs⟩ := Option.map_eq_some_iff.mp hval
  obtain ⟨h0, h1⟩ := Prod.mk.inj hs
  exact ⟨s, hrun, h0, h1, fun h => h.ok 1 h1⟩

end P4db.SharedSendQ
