import P4db.Algorithm.LockWord
import P4db.FastLayout.Equiv.Layout

/-!
# The locks of prepared transactions

* `LocScan.inv_visit`: one step of the scan over the locations of a transaction.  It cannot fail:
  slot 0 has the key with the greatest count, so it comes first in its register.
* `groupLocks_spec`, `assignLocks_le`: every key that is counted gets a lock, and there are enough
  locks.
* `fillLocks_spec`: the locks of a transaction.
* `prepared`: what `prepare_txns_sw` returns.
-/

namespace P4db.FastLayout

open CountMap (countAll total)

variable {lockIdxs : List (DbKey × ℕ)}

/-! ### The order of slots -/

/-- Different keys have different locations. -/
theorem Layout.Built.lookup_inj {lay : Layout} {keys : List DbKey} (h : lay.Built keys)
    {k k' : DbKey} {tl : TupleLoc} (hk : lay.lookup k = some tl) (hk' : lay.lookup k' = some tl) :
    k = k' := by
  have hrev := h.revLookup k tl hk
  rw [h.revLookup k' tl hk', Option.some.injEq] at hrev
  exact hrev.symm

section Made

variable {port : ℕ} {lay : Layout} {keys : List DbKey} {txn : Txn} {t : BuiltTxn}

theorem BuiltTxn.Made.nodup_locs (h : t.Made port lay txn) (hlay : lay.Built keys)
    (hops : ∀ k ∈ txn.ops, k ∈ keys) (hnd : txn.ops.Nodup) : t.locs.Nodup := by
  refine List.Nodup.of_map some (h.perm.nodup_iff.mpr ?_)
  refine List.Nodup.map_on ?_ hnd
  intro k hk k' hk' heq
  obtain ⟨tl, htl⟩ := (hlay.lookup_iff k).mpr (hops k hk)
  exact hlay.lookup_inj htl (heq ▸ htl)

/-- In a transaction with distinct keys, the slots of a register go up. -/
theorem BuiltTxn.Made.pairwise_idx_lt (h : t.Made port lay txn) (hlay : lay.Built keys)
    (hops : ∀ k ∈ txn.ops, k ∈ keys) (hnd : txn.ops.Nodup) :
    t.locs.Pairwise fun a b => a.register = b.register → a.idx < b.idx := by
  refine (h.sorted.and (h.nodup_locs hlay hops hnd)).imp_of_mem ?_
  rintro a b ha hb ⟨hle, hne⟩ hreg
  obtain ⟨k, -, hk⟩ := h.exists_key ha
  obtain ⟨k', -, hk'⟩ := h.exists_key hb
  obtain ⟨ca, cb, hca, hcb, hct, htie⟩ := hle.2 hreg
  rw [hlay.ctAt hk, Option.some.injEq] at hca
  rw [hlay.ctAt hk', Option.some.injEq] at hcb
  rcases Nat.lt_trichotomy a.idx b.idx with hlt | heq | hgt
  · exact hlt
  · obtain ⟨hs, hr⟩ := Prod.mk.inj hreg
    have hab : a = b := by
      cases a
      cases b
      simp_all
    exact absurd hab hne
  · -- a smaller slot has a count that is not smaller, so the counts are equal and the slots decide
    have hheat := hlay.heat k' k b a hk' hk hreg.symm hgt
    have hsame : ca = cb := by omega
    exact absurd (htie hsame) (Nat.not_le_of_lt hgt)

end Made

/-! ### The scan over the locations -/

/-- The keys for which locks are counted. -/
def lockedKeys (lay : Layout) (locs : List TupleLoc) : List DbKey :=
  (locs.filter fun tl => tl.idx ≠ 0).filterMap lay.revLookup

/-- The variables after the locations `done` of a transaction; the keys `ks` were counted before. -/
structure LocScan.Inv (lay : Layout) (ks : List DbKey) (done : List TupleLoc) (st : LocScan) :
    Prop where
  freqs : ∀ s r, r < regsPerStage →
    (0 < st.pass2mFreqs (s * regsPerStage + r) ↔ ∃ a ∈ done, a.register = (s, r))
  counts : st.lock2ByFreq = countAll (ks ++ lockedKeys lay done)
  total : st.totalFreq = (ks ++ lockedKeys lay done).length
  toLock : ∀ tl ∈ st.toLock, tl ∈ done
  again : ∀ d tl d', done = d ++ tl :: d' → (∃ a ∈ d, a.register = tl.register) → tl ∈ st.toLock

theorem LocScan.inv_init (lay : Layout) (ks : List DbKey) :
    LocScan.Inv lay ks [] ⟨fun _ => 0, [], countAll ks, ks.length⟩ := by
  constructor <;> simp [lockedKeys]

section Visit

variable {lay : Layout} {keys ks : List DbKey} {done : List TupleLoc} {st : LocScan} {k : DbKey}
  {tl : TupleLoc}

/-- The place of a register in `pass2m_freqs`. -/
def freqIdx (tl : TupleLoc) : ℕ := tl.stage * regsPerStage + tl.reg

theorem freqIdx_eq_iff {s r : ℕ} (hreg : tl.reg < regsPerStage) (hr : r < regsPerStage) :
    s * regsPerStage + r = freqIdx tl ↔ tl.register = (s, r) := by
  unfold freqIdx TupleLoc.register
  unfold regsPerStage at *
  rw [Prod.mk.injEq]
  omega

/-- What an iteration does with the location of a key. -/
theorem LocScan.visit_eq (hrev : lay.revLookup tl = some k) {freq : ℕ}
    (hct : lay.getKeyCt k = some freq) (hidx : 0 < st.pass2mFreqs (freqIdx tl) → tl.idx ≠ 0) :
    LocScan.visit lay st tl = some
      ⟨Function.update st.pass2mFreqs (freqIdx tl) freq,
        if 0 < st.pass2mFreqs (freqIdx tl) then st.toLock ++ [tl] else st.toLock,
        if tl.idx ≠ 0 then CountMap.bump k st.lock2ByFreq else st.lock2ByFreq,
        if tl.idx ≠ 0 then st.totalFreq + 1 else st.totalFreq⟩ := by
  unfold LocScan.visit
  rw [hrev, Option.bind_eq_bind, Option.bind_some, hct, Option.bind_eq_bind, Option.bind_some]
  unfold freqIdx at hidx ⊢
  by_cases hz : tl.idx = 0
  · have hnone : ¬ 0 < st.pass2mFreqs (tl.stage * regsPerStage + tl.reg) := fun hpos => hidx hpos hz
    simp [hz, hnone]
  · by_cases hpos : 0 < st.pass2mFreqs (tl.stage * regsPerStage + tl.reg)
    · simp [hz, hpos]
    · simp [hz, hpos]

theorem lockedKeys_append_singleton (done : List TupleLoc) (hrev : lay.revLookup tl = some k) :
    lockedKeys lay (done ++ [tl]) = lockedKeys lay done ++ if tl.idx ≠ 0 then [k] else [] := by
  unfold lockedKeys
  rw [List.filter_append, List.filterMap_append]
  by_cases hz : tl.idx = 0
  · simp [hz]
  · simp [hz, hrev]

/-- A location goes to `to_lock` if its register was seen before. -/
theorem again_append_singleton {toLock : List TupleLoc}
    (h : ∀ d a d', done = d ++ a :: d' → (∃ b ∈ d, b.register = a.register) → a ∈ toLock)
    {seen : Prop} [Decidable seen] (hseen : seen ↔ ∃ b ∈ done, b.register = tl.register) :
    ∀ d a d', done ++ [tl] = d ++ a :: d' → (∃ b ∈ d, b.register = a.register) →
      a ∈ if seen then toLock ++ [tl] else toLock := by
  intro d a d' heq hex
  rcases List.eq_nil_or_concat d' with rfl | ⟨d'', b, rfl⟩
  · -- the new location
    obtain ⟨rfl, hlast⟩ := List.append_inj' heq rfl
    obtain rfl : tl = a := by simpa using hlast
    rw [if_pos (hseen.mpr hex)]
    exact List.mem_append_right _ List.mem_cons_self
  · rw [List.concat_eq_append, ← List.cons_append, ← List.append_assoc] at heq
    have ha := h d a d'' (List.append_inj' heq rfl).1 hex
    split_ifs
    · exact List.mem_append_left _ ha
    · exact ha

theorem LocScan.inv_visit (hlay : lay.Built keys) (h : LocScan.Inv lay ks done st)
    (hk : lay.lookup k = some tl) (hidx : (∃ a ∈ done, a.register = tl.register) → tl.idx ≠ 0) :
    ∃ st', LocScan.visit lay st tl = some st' ∧ LocScan.Inv lay ks (done ++ [tl]) st' := by
  obtain ⟨hs, hr⟩ := hlay.range k tl hk
  have hrev := hlay.revLookup k tl hk
  have hin : k ∈ keys := (hlay.lookup_iff k).mp ⟨tl, hk⟩
  have hseen : 0 < st.pass2mFreqs (freqIdx tl) ↔ ∃ a ∈ done, a.register = tl.register :=
    h.freqs tl.stage tl.reg hr
  have hlocked := lockedKeys_append_singleton done hrev
  refine ⟨_, LocScan.visit_eq hrev (hlay.getKeyCt k hin) fun hpos => hidx (hseen.mp hpos), ?_⟩
  constructor
  case freqs =>
    intro s r hr'
    dsimp only
    by_cases hsr : s * regsPerStage + r = freqIdx tl
    · have hreg := (freqIdx_eq_iff hr hr').mp hsr
      rw [hsr, Function.update_self]
      exact iff_of_true (List.count_pos_iff.mpr hin)
        ⟨tl, List.mem_append_right _ List.mem_cons_self, hreg⟩
    · have hreg : tl.register ≠ (s, r) := fun heq => hsr ((freqIdx_eq_iff hr hr').mpr heq)
      rw [Function.update_of_ne hsr, h.freqs s r hr']
      simp [or_and_right, exists_or, hreg]
  case counts =>
    dsimp only
    rw [hlocked]
    split_ifs
    · rw [← List.append_assoc, CountMap.countAll_append_singleton, h.counts]
    · rw [List.append_nil, h.counts]
  case total =>
    dsimp only
    rw [hlocked]
    split_ifs
    · rw [← List.append_assoc, List.length_append, h.total, List.length_singleton]
    · rw [List.append_nil, h.total]
  case toLock =>
    intro a ha
    dsimp only at ha
    split_ifs at ha
    · rcases List.mem_append.mp ha with ha | ha
      · exact List.mem_append_left _ (h.toLock a ha)
      · exact List.mem_append_right _ ha
    · exact List.mem_append_left _ (h.toLock a ha)
  case again => exact again_append_singleton h.again hseen

end Visit

theorem LocScan.foldlM_visit {lay : Layout} {keys : List DbKey} (hlay : lay.Built keys)
    (ks : List DbKey) {locs : List TupleLoc} (hkey : ∀ tl ∈ locs, ∃ k, lay.lookup k = some tl)
    (hidx : locs.Pairwise fun a b => a.register = b.register → a.idx < b.idx) :
    ∃ st, locs.foldlM (LocScan.visit lay) ⟨fun _ => 0, [], countAll ks, ks.length⟩ = some st ∧
      LocScan.Inv lay ks locs st := by
  induction locs using List.reverseRecOn with
  | nil => exact ⟨_, rfl, LocScan.inv_init lay ks⟩
  | append_singleton locs tl ih =>
    obtain ⟨hinit, -, hlast⟩ := List.pairwise_append.mp hidx
    obtain ⟨st, hst, hinv⟩ := ih (fun a ha => hkey a (List.mem_append_left _ ha)) hinit
    obtain ⟨k, hk⟩ := hkey tl (List.mem_append_right _ List.mem_cons_self)
    have hne : (∃ a ∈ locs, a.register = tl.register) → tl.idx ≠ 0 := by
      rintro ⟨a, ha, hreg⟩
      exact Nat.ne_of_gt (Nat.lt_of_le_of_lt (Nat.zero_le _)
        (hlast a ha tl List.mem_cons_self hreg))
    obtain ⟨st', hst', hinv'⟩ := LocScan.inv_visit hlay hinv hk hne
    refine ⟨st', ?_, hinv'⟩
    rw [List.foldlM_append, hst]
    simpa using hst'

/-! ### The scan over the transactions -/

/-- The transactions that the switch gets. -/
def BuiltTxn.Accelerated (t : BuiltTxn) : Prop :=
  t.passes.length ≤ 1 ∨ t.passes.length = 2 ∧ ∀ pass2, t.passes[1]? = some pass2 →
    pass2.opCt ≤ pass2AccelThr

theorem BuiltTxn.accel_iff (t : BuiltTxn) : t.accel = true ↔ t.Accelerated := by
  unfold BuiltTxn.accel BuiltTxn.Accelerated
  split_ifs with h2 heq
  · simp only [false_iff]
    omega
  · cases hpass : t.passes[1]? with
    | none => simp [heq]
    | some pass2 => simp [heq]
  · simp only [true_iff]
    omega

/-- What is known of a transaction and its entry of `to_lock`. -/
structure ToLock (lay : Layout) (p : BuiltTxn × List TupleLoc) : Prop where
  key : ∀ tl ∈ p.1.locs, ∃ k, lay.lookup k = some tl
  idx : p.1.locs.Pairwise fun a b => a.register = b.register → a.idx < b.idx
  subset : ∀ tl ∈ p.2, tl ∈ p.1.locs
  again : ∀ d tl d', p.1.locs = d ++ tl :: d' → (∃ a ∈ d, a.register = tl.register) → tl ∈ p.2

/-- The variables after the transactions `done`. -/
structure Prep.Inv (port : ℕ) (lay : Layout) (done : List Txn) (st : Prep) : Prop where
  built : ∃ built, done.mapM (BuiltTxn.new port lay) = some built ∧
    st.swTxns.map Prod.fst = built.filter BuiltTxn.accel
  made : ∀ p ∈ st.swTxns, ∃ txn ∈ done, p.1.Made port lay txn
  toLock : ∀ p ∈ st.swTxns, ToLock lay p
  counts : st.lock2ByFreq = countAll (st.swTxns.flatMap fun p => lockedKeys lay p.1.locs)
  total : st.totalFreq = (st.swTxns.flatMap fun p => lockedKeys lay p.1.locs).length

theorem Prep.inv_visit {port : ℕ} {lay : Layout} {keys : List DbKey} (hlay : lay.Built keys)
    {done : List Txn} {st : Prep} (h : Prep.Inv port lay done st) {txn : Txn}
    (hops : ∀ k ∈ txn.ops, k ∈ keys) (hnd : txn.ops.Nodup) (hlen : txn.ops.length ≤ 100) :
    ∃ st', Prep.visit port lay st txn = some st' ∧ Prep.Inv port lay (done ++ [txn]) st' := by
  obtain ⟨t, hnew, hmade⟩ := BuiltTxn.new_spec hlay port hops hlen
  obtain ⟨built, hbuilt, hfst⟩ := h.built
  have hbuilt' : (done ++ [txn]).mapM (BuiltTxn.new port lay) = some (built ++ [t]) := by
    rw [Transition.mapM_eq_some_iff] at hbuilt ⊢
    simp [hbuilt, hnew]
  have hold : ∀ p ∈ st.swTxns, ∃ txn' ∈ done ++ [txn], p.1.Made port lay txn' := fun p hp => by
    obtain ⟨txn', hin, hm⟩ := h.made p hp
    exact ⟨txn', List.mem_append_left _ hin, hm⟩
  by_cases hacc : t.accel = true
  · have hkey : ∀ tl ∈ t.locs, ∃ k, lay.lookup k = some tl := fun tl htl => by
      obtain ⟨k, -, hk⟩ := hmade.exists_key htl
      exact ⟨k, hk⟩
    have hidx := hmade.pairwise_idx_lt hlay hops hnd
    obtain ⟨scan, hscan, hinv⟩ :=
      LocScan.foldlM_visit hlay (st.swTxns.flatMap fun p => lockedKeys lay p.1.locs) hkey hidx
    have hlocs : t.locs.length = t.origTxn.ops.length := by
      rw [hmade.origTxn]
      simpa using hmade.perm.length_eq
    refine ⟨⟨st.swTxns ++ [(t, scan.toLock)], scan.lock2ByFreq, scan.totalFreq⟩, ?_, ?_⟩
    · unfold Prep.visit
      rw [hnew, Option.bind_eq_bind, Option.bind_some, if_pos hacc, if_pos hlocs, h.counts,
        h.total, hscan]
      rfl
    · constructor
      case built =>
        refine ⟨built ++ [t], hbuilt', ?_⟩
        rw [List.map_append, hfst, List.filter_append]
        simp [hacc]
      case made =>
        intro p hp
        rcases List.mem_append.mp hp with hp | hp
        · exact hold p hp
        · rw [List.mem_singleton.mp hp]
          exact ⟨txn, List.mem_append_right _ List.mem_cons_self, hmade⟩
      case toLock =>
        intro p hp
        rcases List.mem_append.mp hp with hp | hp
        · exact h.toLock p hp
        · rw [List.mem_singleton.mp hp]
          exact ⟨hkey, hidx, hinv.toLock, hinv.again⟩
      case counts =>
        rw [List.flatMap_append]
        simpa using hinv.counts
      case total =>
        rw [List.flatMap_append]
        simpa using hinv.total
  · refine ⟨st, ?_, ⟨built ++ [t], hbuilt', ?_⟩, hold, h.toLock, h.counts, h.total⟩
    · unfold Prep.visit
      rw [hnew, Option.bind_eq_bind, Option.bind_some, if_neg hacc]
    · rw [hfst, List.filter_append]
      simp [hacc]

theorem Prep.inv_scanTxns (port : ℕ) {lay : Layout} {keys : List DbKey} (hlay : lay.Built keys)
    {txns : List Txn} (hops : ∀ txn ∈ txns, ∀ k ∈ txn.ops, k ∈ keys)
    (hnd : ∀ txn ∈ txns, txn.ops.Nodup) (hlen : ∀ txn ∈ txns, txn.ops.length ≤ 100) :
    ∃ prep, scanTxns port txns lay = some prep ∧ Prep.Inv port lay txns prep := by
  unfold scanTxns
  induction txns using List.reverseRecOn with
  | nil => exact ⟨_, rfl, ⟨[], rfl, rfl⟩, by simp, by simp, rfl, rfl⟩
  | append_singleton txns txn ih =>
    have hlast : txn ∈ txns ++ [txn] := List.mem_append_right _ List.mem_cons_self
    obtain ⟨prep, hprep, hinv⟩ := ih (fun x hx => hops x (List.mem_append_left _ hx))
      (fun x hx => hnd x (List.mem_append_left _ hx))
      (fun x hx => hlen x (List.mem_append_left _ hx))
    obtain ⟨prep', hprep', hinv'⟩ :=
      Prep.inv_visit hlay hinv (hops txn hlast) (hnd txn hlast) (hlen txn hlast)
    refine ⟨prep', ?_, hinv'⟩
    rw [List.foldlM_append, hprep]
    simpa using hprep'

/-! ### Groups of keys -/

/-- The inner loop takes keys until the sum of their frequencies reaches the quantum. -/
theorem fillLock_spec (q num : ℕ) {lock2V : List (DbKey × ℕ)} (fsum : ℕ)
    (lockIdxs : List (DbKey × ℕ)) (hnd : (lockIdxs.map Prod.fst ++ lock2V.map Prod.fst).Nodup) :
    ∃ taken rest, lock2V = taken ++ rest ∧
      fillLock q num lock2V fsum lockIdxs = (rest, lockIdxs ++ taken.map fun e => (e.1, num)) ∧
      (rest = [] ∨ q ≤ fsum + total taken) := by
  induction lock2V generalizing fsum lockIdxs with
  | nil => exact ⟨[], [], rfl, by simp [fillLock], .inl rfl⟩
  | cons pr lock2V ih =>
    unfold fillLock
    split_ifs with hlt
    · have hnew : pr.1 ∉ lockIdxs.map Prod.fst := fun hin =>
        (List.nodup_append.mp hnd).2.2 pr.1 hin pr.1 List.mem_cons_self rfl
      have hins : insertLock lockIdxs pr.1 num = lockIdxs ++ [(pr.1, num)] := by
        unfold insertLock
        rw [if_neg hnew]
      rw [hins]
      obtain ⟨taken, rest, rfl, hfill, hsum⟩ :=
        ih (fsum + pr.2) (lockIdxs ++ [(pr.1, num)]) (by simpa using hnd)
      refine ⟨pr :: taken, rest, rfl, ?_, ?_⟩
      · rw [hfill]
        simp
      · rw [CountMap.total_cons, ← Nat.add_assoc]
        exact hsum
    · exact ⟨[], pr :: lock2V, rfl, by simp, .inr (by omega)⟩

theorem groupLocks_nil (q num : ℕ) (lockIdxs : List (DbKey × ℕ)) :
    groupLocks q [] num lockIdxs = (lockIdxs, num) := by
  unfold groupLocks
  rfl

/-- **The grouping.**  Every key gets a lock below the number of locks, and all groups but the last
one reach the quantum. -/
theorem groupLocks_spec {q : ℕ} (hq : 0 < q) {lock2V : List (DbKey × ℕ)} (num : ℕ)
    (lockIdxs : List (DbKey × ℕ)) (hnd : (lockIdxs.map Prod.fst ++ lock2V.map Prod.fst).Nodup)
    (hpos : ∀ e ∈ lock2V, 0 < e.2) (hidx : ∀ e ∈ lockIdxs, e.2 < num) :
    let r := groupLocks q lock2V num lockIdxs
    r.1.map Prod.fst = lockIdxs.map Prod.fst ++ lock2V.map Prod.fst ∧ (∀ e ∈ r.1, e.2 < r.2) ∧
      r.2 * q < num * q + total lock2V + q := by
  -- induction over what is left after each group
  dsimp only
  fun_induction groupLocks q lock2V num lockIdxs with
  | case1 num lockIdxs => exact ⟨by simp, hidx, by simpa [total] using hq⟩
  | case2 pr lock2V num lockIdxs r ih =>
    have hnew : pr.1 ∉ lockIdxs.map Prod.fst := fun hin =>
      (List.nodup_append.mp hnd).2.2 pr.1 hin pr.1 List.mem_cons_self rfl
    have hins : insertLock lockIdxs pr.1 num = lockIdxs ++ [(pr.1, num)] := by
      unfold insertLock
      rw [if_neg hnew]
    obtain ⟨taken, rest, rfl, hfill, hsum⟩ := fillLock_spec q num pr.2 (lockIdxs ++ [(pr.1, num)])
      (by simpa using hnd)
    have hr : r = (rest, lockIdxs ++ [(pr.1, num)] ++ taken.map fun e => (e.1, num)) := by
      unfold r
      rw [hins, hfill]
    rw [hr] at ih ⊢
    dsimp only at ih ⊢
    obtain ⟨hfst, hlt, hbound⟩ := ih (by simpa [Function.comp_def] using hnd)
      (fun e he => hpos e (by simp [he])) (by
        intro e he
        simp only [List.append_assoc, List.mem_append, List.mem_singleton, List.mem_map] at he
        rcases he with he | rfl | ⟨e', -, rfl⟩
        · exact Nat.lt_succ_of_lt (hidx e he)
        · exact Nat.lt_succ_self _
        · exact Nat.lt_succ_self _)
    refine ⟨?_, hlt, ?_⟩
    · rw [hfst]
      simp [Function.comp_def]
    · have hpr := hpos pr List.mem_cons_self
      rw [CountMap.total_cons, CountMap.total_append]
      rw [Nat.add_mul, Nat.one_mul] at hbound
      rcases hsum with rfl | hsum
      · -- the last group
        rw [groupLocks_nil, Nat.add_mul, Nat.one_mul]
        omega
      · omega

/-- There are enough locks: each of the groups but the last has one `nLocks`-th of all frequencies,
rounded up. -/
theorem assignLocks_spec {sort : List (DbKey × ℕ) → List (DbKey × ℕ)} (hsort : IsSort sort)
    {prep : Prep} {ks : List DbKey} (hcounts : prep.lock2ByFreq = countAll ks)
    (htotal : prep.totalFreq = ks.length) :
    (assignLocks sort prep).1.length = prep.lock2ByFreq.length ∧
    (assignLocks sort prep).2 ≤ nLocks ∧
      (∀ e ∈ (assignLocks sort prep).1, e.2 < (assignLocks sort prep).2) ∧
      ∀ k ∈ ks, k ∈ (assignLocks sort prep).1.map Prod.fst := by
  have hperm : (sort prep.lock2ByFreq).Perm (countAll ks) := hcounts ▸ hsort.perm _
  have hsum : total (sort prep.lock2ByFreq) = ks.length :=
    (CountMap.total_perm hperm).trans (CountMap.total_countAll ks)
  unfold assignLocks
  rw [htotal]
  set q := (ks.length + nLocks - 1) / nLocks with hq
  have hle : ks.length ≤ nLocks * q := by
    unfold nLocks at hq ⊢
    omega
  cases hks : ks with
  | nil =>
    -- no locks are needed
    have hempty : sort prep.lock2ByFreq = [] := by
      rw [hks] at hperm
      exact hperm.eq_nil
    rw [hempty, groupLocks_nil, hcounts, hks]
    exact ⟨rfl, Nat.zero_le _, by simp, by simp⟩
  | cons k ks' =>
    have hqpos : 0 < q := by
      rcases Nat.eq_zero_or_pos q with hz | hpos
      · rw [hz, hks] at hle
        exact absurd hle (Nat.not_succ_le_zero _)
      · exact hpos
    have hpos : ∀ e ∈ sort prep.lock2ByFreq, 0 < e.2 := fun e he =>
      (CountMap.mem_countAll_iff.mp (hperm.mem_iff.mp he)).2
    have hnd : ((sort prep.lock2ByFreq).map Prod.fst).Nodup :=
      (hperm.map Prod.fst).nodup_iff.mpr (CountMap.nodup_countAll ks)
    obtain ⟨hfst, hlt, hbound⟩ := groupLocks_spec hqpos 0 [] (by simpa using hnd) hpos (by simp)
    set r := groupLocks q (sort prep.lock2ByFreq) 0 [] with hr
    rw [List.map_nil, List.nil_append] at hfst
    refine ⟨?_, ?_, hlt, ?_⟩
    · have hlen := congrArg List.length hfst
      rw [List.length_map, List.length_map] at hlen
      rw [hlen, hperm.length_eq, hcounts]
    · have hmul : r.2 * q < (nLocks + 1) * q := by
        rw [Nat.add_mul, Nat.one_mul]
        omega
      exact Nat.le_of_lt_succ (Nat.lt_of_mul_lt_mul_right hmul)
    · intro k hk
      rw [hfst, (hperm.map Prod.fst).mem_iff, CountMap.mem_map_fst_countAll, hks]
      exact hk

/-! ### Filling the locks -/

/-- The lock of a location, if its key has one, is among `locks`. -/
def HasLock (lay : Layout) (lockIdxs : List (DbKey × ℕ)) (tl : TupleLoc) (locks : BitVec nLocks) :
    Prop :=
  ∃ k n, lay.revLookup tl = some k ∧ lockIdxs.lookup k = some n ∧ locks.getLsbD n = true

theorem lockOf_lt {n : ℕ} (hn : n ≤ nLocks) (h : ∀ e ∈ lockIdxs, e.2 < n) (k : DbKey) :
    lockOf lockIdxs k < nLocks := by
  unfold lockOf
  cases hk : lockIdxs.lookup k with
  | none => exact Nat.zero_lt_succ _
  | some m =>
    obtain ⟨l, l', rfl, -⟩ := List.lookup_eq_some_iff.mp hk
    exact Nat.lt_of_lt_of_le (h (k, m) (by simp)) hn

/-- The loop over locations sets exactly the locks of their keys. -/
theorem foldlM_setLock {lay : Layout} (hlt : ∀ k, lockOf lockIdxs k < nLocks) {locs : List TupleLoc}
    (hkey : ∀ tl ∈ locs, ∃ k, lay.revLookup tl = some k) (locks : BitVec nLocks) :
    ∃ locks', locs.foldlM (setLock lay lockIdxs) locks = some locks' ∧
      ∀ i, locks'.getLsbD i = true ↔
      locks.getLsbD i = true ∨ ∃ tl ∈ locs, ∃ k, lay.revLookup tl = some k ∧
        lockOf lockIdxs k = i := by
  induction locs generalizing locks with
  | nil => exact ⟨locks, rfl, by simp⟩
  | cons tl locs ih =>
    obtain ⟨k, hk⟩ := hkey tl List.mem_cons_self
    have hset : setLock lay lockIdxs locks tl =
        some (locks ||| BitVec.twoPow nLocks (lockOf lockIdxs k)) := by
      unfold setLock
      rw [hk, Option.bind_eq_bind, Option.bind_some, if_pos (hlt k)]
    obtain ⟨locks', hlocks', hbits⟩ := ih (fun a ha => hkey a (List.mem_cons_of_mem tl ha))
      (locks ||| BitVec.twoPow nLocks (lockOf lockIdxs k))
    refine ⟨locks', ?_, ?_⟩
    · rw [List.foldlM_cons, hset]
      exact hlocks'
    · intro i
      rw [hbits, BitVec.getLsbD_or, BitVec.getLsbD_twoPow]
      simp [hlt k, hk, or_assoc]

/-- The locks that a prepared transaction has to have. -/
structure Locked (lay : Layout) (lockIdxs : List (DbKey × ℕ)) (t : BuiltTxn) : Prop where
  subset : t.locksWanted &&& t.locksCheck = t.locksWanted
  wanted : ∀ pass2, t.passes[1]? = some pass2 → ∀ s r idx, pass2.grid s r = some idx →
    idx ≠ 0 ∧ HasLock lay lockIdxs ⟨s, r, idx⟩ t.locksWanted
  check : ∀ k ∈ t.origTxn.ops, ∀ tl, lay.lookup k = some tl → tl.idx ≠ 0 →
    HasLock lay lockIdxs tl t.locksCheck

/-- A location of the second pass comes behind another one of its register. -/
theorem BuiltTxn.Made.again {port : ℕ} {lay : Layout} {txn : Txn} {t : BuiltTxn}
    (h : t.Made port lay txn) {pass2 : SwPassTxn} (hpass2 : t.passes[1]? = some pass2) {s r idx : ℕ}
    (hidx : pass2.grid s r = some idx) :
    ∃ d d', t.locs = d ++ ⟨s, r, idx⟩ :: d' ∧ ∃ a ∈ d, a.register = (s, r) := by
  rw [h.grid_eq hpass2, Option.map_eq_some_iff] at hidx
  obtain ⟨tl, htl, rfl⟩ := hidx
  unfold column at htl
  cases hcol : t.locs.filter fun a => a.register = (s, r) with
  | nil => simp [hcol] at htl
  | cons a col =>
    cases col with
    | nil => simp [hcol] at htl
    | cons b col =>
      obtain rfl : b = tl := by simpa [hcol] using htl
      obtain ⟨d, l, hl, -, ha, hrest⟩ := List.filter_eq_cons_iff.mp hcol
      obtain ⟨d', l', rfl, -, hb, -⟩ := List.filter_eq_cons_iff.mp hrest
      obtain ⟨rfl, rfl⟩ := Prod.mk.inj (show b.register = (s, r) by simpa using hb)
      refine ⟨d ++ a :: d', l', ?_, a, by simp, by simpa using ha⟩
      rw [hl]
      simp

/-- A transaction before its locks are set. -/
def BuiltTxn.clearLocks (t : BuiltTxn) : BuiltTxn := { t with locksCheck := 0, locksWanted := 0 }

theorem BuiltTxn.clearLocks_of_locks (t : BuiltTxn) (h : t.locksCheck = 0 ∧ t.locksWanted = 0) :
    t.clearLocks = t := by
  unfold BuiltTxn.clearLocks
  rw [← h.2]
  nth_rewrite 1 [h.2]
  rw [← h.1]

/-- A key in `lock_idxs` has its lock from there. -/
theorem exists_lookup {k : DbKey} (h : k ∈ lockIdxs.map Prod.fst) :
    ∃ n, lockIdxs.lookup k = some n ∧ lockOf lockIdxs k = n := by
  have hsome : (lockIdxs.lookup k).isSome = true := by
    rw [List.lookup_isSome_iff]
    obtain ⟨e, he, rfl⟩ := List.mem_map.mp h
    exact ⟨e, he, beq_self_eq_true e.1⟩
  obtain ⟨n, hn⟩ := Option.isSome_iff_exists.mp hsome
  refine ⟨n, hn, ?_⟩
  unfold lockOf
  rw [hn]
  rfl

/-- The locks of one transaction. -/
theorem fillLocks_spec {port : ℕ} {lay : Layout} {keys : List DbKey} (hlay : lay.Built keys)
    (hlt : ∀ k, lockOf lockIdxs k < nLocks) {p : BuiltTxn × List TupleLoc} {txn : Txn}
    (hmade : p.1.Made port lay txn) (hto : ToLock lay p)
    (hlocked : ∀ k ∈ lockedKeys lay p.1.locs, k ∈ lockIdxs.map Prod.fst) :
    ∃ t, fillLocks lay lockIdxs p = some t ∧ t.clearLocks = p.1 ∧ Locked lay lockIdxs t := by
  obtain ⟨t, toLock⟩ := p
  dsimp only at hmade hlocked
  have hrev : ∀ tl ∈ t.locs, ∃ k, lay.revLookup tl = some k := fun tl htl => by
    obtain ⟨k, hk⟩ := hto.key tl htl
    exact ⟨k, hlay.revLookup k tl hk⟩
  obtain ⟨check, hcheck, hcheckBits⟩ := foldlM_setLock hlt hrev t.locksCheck
  obtain ⟨wanted, hwanted, hwantedBits⟩ :=
    foldlM_setLock hlt (fun tl htl => hrev tl (hto.subset tl htl)) t.locksWanted
  rw [hmade.locks.1] at hcheckBits
  rw [hmade.locks.2] at hwantedBits
  have hsubset : wanted &&& check = wanted := by
    rw [LockWord.and_eq_left_iff]
    intro i hw
    rcases (hwantedBits i).mp hw with hzero | ⟨tl, htl, hlock⟩
    · simp at hzero
    · exact (hcheckBits i).mpr (.inr ⟨tl, hto.subset tl htl, hlock⟩)
  -- a location with another slot than 0 has a lock of its own
  have hentry : ∀ tl ∈ t.locs, tl.idx ≠ 0 → ∃ k n, lay.revLookup tl = some k ∧
      lockIdxs.lookup k = some n ∧ lockOf lockIdxs k = n := by
    intro tl htl hidx
    obtain ⟨k, hk⟩ := hrev tl htl
    have hmem : k ∈ lockedKeys lay t.locs :=
      List.mem_filterMap.mpr ⟨tl, List.mem_filter.mpr ⟨htl, by simpa using hidx⟩, hk⟩
    obtain ⟨n, hn, hlock⟩ := exists_lookup (hlocked k hmem)
    exact ⟨k, n, hk, hn, hlock⟩
  refine ⟨{ t with locksCheck := check, locksWanted := wanted }, ?_,
    t.clearLocks_of_locks hmade.locks, hsubset, ?_, ?_⟩
  · unfold fillLocks
    rw [hcheck, Option.bind_eq_bind, Option.bind_some, hwanted, Option.bind_some, if_pos hsubset]
  · intro pass2 hpass2 s r idx hidx
    obtain ⟨d, d', hlocs, a, ha, hreg⟩ := hmade.again hpass2 hidx
    have hin : (⟨s, r, idx⟩ : TupleLoc) ∈ t.locs := by
      rw [hlocs]
      exact List.mem_append_right d List.mem_cons_self
    have hne : idx ≠ 0 := by
      have hpair := hto.idx
      dsimp only at hpair
      rw [hlocs] at hpair
      exact Nat.ne_of_gt (Nat.lt_of_le_of_lt (Nat.zero_le _)
        ((List.pairwise_append.mp hpair).2.2 a ha ⟨s, r, idx⟩ List.mem_cons_self hreg))
    obtain ⟨k, n, hk, hn, hlock⟩ := hentry _ hin hne
    exact ⟨hne, k, n, hk, hn,
      (hwantedBits n).mpr (.inr ⟨_, hto.again d _ d' hlocs ⟨a, ha, hreg⟩, k, hk, hlock⟩)⟩
  · intro k hk tl htl hne
    dsimp only at hk
    rw [hmade.origTxn] at hk
    have hin : tl ∈ t.locs := by
      have hmem : some tl ∈ t.locs.map some :=
        hmade.perm.mem_iff.mpr (List.mem_map.mpr ⟨k, hk, htl⟩)
      simpa using hmem
    obtain ⟨k', n, hk', hn, hlock⟩ := hentry tl hin hne
    exact ⟨k', n, hk', hn, (hcheckBits n).mpr (.inr ⟨tl, hin, k', hk', hlock⟩)⟩

theorem mapM_fillLocks {port : ℕ} {lay : Layout} {keys : List DbKey} (hlay : lay.Built keys)
    (hlt : ∀ k, lockOf lockIdxs k < nLocks) {ps : List (BuiltTxn × List TupleLoc)}
    (hmade : ∀ p ∈ ps, ∃ txn, p.1.Made port lay txn) (hto : ∀ p ∈ ps, ToLock lay p)
    (hlocked : ∀ p ∈ ps, ∀ k ∈ lockedKeys lay p.1.locs, k ∈ lockIdxs.map Prod.fst) :
    ∃ sw, ps.mapM (fillLocks lay lockIdxs) = some sw ∧
      sw.map BuiltTxn.clearLocks = ps.map Prod.fst ∧
      ∀ t ∈ sw, Locked lay lockIdxs t := by
  induction ps with
  | nil => exact ⟨[], by simp, rfl, by simp⟩
  | cons p ps ih =>
    obtain ⟨txn, hm⟩ := hmade p List.mem_cons_self
    obtain ⟨t, ht, hclear, hl⟩ :=
      fillLocks_spec hlay hlt hm (hto p List.mem_cons_self) (hlocked p List.mem_cons_self)
    obtain ⟨sw, hsw, hclears, hls⟩ := ih (fun q hq => hmade q (List.mem_cons_of_mem p hq))
      (fun q hq => hto q (List.mem_cons_of_mem p hq))
      (fun q hq => hlocked q (List.mem_cons_of_mem p hq))
    refine ⟨t :: sw, ?_, ?_, ?_⟩
    · simp [List.mapM_cons, ht, hsw]
    · rw [List.map_cons, List.map_cons, hclear, hclears]
    · intro t' ht'
      rcases List.mem_cons.mp ht' with rfl | ht'
      · exact hl
      · exact hls t' ht'

instance (t : BuiltTxn) : Decidable t.Accelerated := decidable_of_iff _ t.accel_iff

/-- **Prepared transactions.**  Let the layout be the one for a list of transactions, each with
distinct keys and at most 100 of them.  Then nothing fails, at most `nLocks` lock numbers are in
use, and the result are the transactions with at most one pass, and those with two passes and few
operations in the second one.  They want no locks that they do not check; an operation of the second
pass has another slot than 0 and its lock is wanted; and the lock of any operation with another slot
than 0 is checked. -/
theorem prepared {sort sort' : List (DbKey × ℕ) → List (DbKey × ℕ)} (hsort : IsSort sort)
    (hsort' : IsSort sort') (port : ℕ) (txns : List Txn) (hnd : ∀ txn ∈ txns, txn.ops.Nodup)
    (hlen : ∀ txn ∈ txns, txn.ops.length ≤ 100) :
    ∃ prep sw built, scanTxns port txns (Layout.new sort txns) = some prep ∧
      prepareTxnsSw sort' port txns (Layout.new sort txns) = some sw ∧
      (assignLocks sort' prep).2 ≤ nLocks ∧
      (∀ e ∈ (assignLocks sort' prep).1, e.2 < (assignLocks sort' prep).2) ∧
      txns.mapM (BuiltTxn.new port (Layout.new sort txns)) = some built ∧
      sw.map BuiltTxn.clearLocks = built.filter (fun t => t.Accelerated) ∧
      ∀ t ∈ sw, Locked (Layout.new sort txns) (assignLocks sort' prep).1 t := by
  have hlay := Layout.built_new hsort txns
  have hops : ∀ txn ∈ txns, ∀ k ∈ txn.ops, k ∈ txns.flatMap Txn.ops := fun txn htxn k hk =>
    List.mem_flatMap.mpr ⟨txn, htxn, hk⟩
  obtain ⟨prep, hprep, hinv⟩ := Prep.inv_scanTxns port hlay hops hnd hlen
  obtain ⟨hsize, hnum, hlt, hall⟩ := assignLocks_spec hsort' hinv.counts hinv.total
  obtain ⟨built, hbuilt, hfst⟩ := hinv.built
  have hmade : ∀ p ∈ prep.swTxns, ∃ txn, p.1.Made port (Layout.new sort txns) txn := fun p hp => by
    obtain ⟨txn, -, hm⟩ := hinv.made p hp
    exact ⟨txn, hm⟩
  obtain ⟨sw, hsw, hclear, hlocked⟩ := mapM_fillLocks hlay (lockOf_lt hnum hlt) hmade hinv.toLock
    fun p hp k hk => hall k (List.mem_flatMap.mpr ⟨p, hp, hk⟩)
  refine ⟨prep, sw, built, hprep, ?_, hnum, hlt, hbuilt, ?_, hlocked⟩
  · unfold prepareTxnsSw
    rw [hprep, Option.bind_eq_bind, Option.bind_some]
    dsimp only
    rw [if_pos hsize, hsw]
  · rw [hclear, hfst]
    apply List.filter_congr
    intro t _
    rw [Bool.eq_iff_iff, decide_eq_true_iff]
    exact t.accel_iff

/-- One register has two of 37 keys, and the transaction gets a second pass with one operation. -/
theorem prepared_range : ∃ prep sw built,
    scanTxns 0 [⟨List.range 37⟩] (Layout.new sortCts [⟨List.range 37⟩]) = some prep ∧
      prepareTxnsSw sortCts 0 [⟨List.range 37⟩] (Layout.new sortCts [⟨List.range 37⟩]) = some sw ∧
      (assignLocks sortCts prep).2 ≤ nLocks ∧
      (∀ e ∈ (assignLocks sortCts prep).1, e.2 < (assignLocks sortCts prep).2) ∧
      [⟨List.range 37⟩].mapM (BuiltTxn.new 0 (Layout.new sortCts [⟨List.range 37⟩])) = some built ∧
      sw.map BuiltTxn.clearLocks = built.filter (fun t => t.Accelerated) ∧
      ∀ t ∈ sw, Locked (Layout.new sortCts [⟨List.range 37⟩]) (assignLocks sortCts prep).1 t :=
  prepared isSort_sortCts isSort_sortCts 0 [⟨List.range 37⟩] (by simp [List.nodup_range]) (by simp)

/-- A transaction without operations has no pass at all and is returned, and one with 101 operations
fails. -/
theorem not_prepared_emptyOrLong :
    (∃ t, prepareTxnsSw sortCts 0 [⟨[]⟩] (Layout.new sortCts [⟨[]⟩]) = some [t] ∧
      t.passes.length = 0) ∧
      (List.range 101).Nodup ∧
      prepareTxnsSw sortCts 0 [⟨List.range 101⟩]
        (Layout.new sortCts [⟨List.range 101⟩]) = none := by
  refine ⟨?_, List.nodup_range, ?_⟩
  · have hpasses : assignPasses [] = some [] := by
      unfold assignPasses countPasses
      rw [Runs.runs_nil]
      rfl
    set t : BuiltTxn := ⟨⟨0, 0, 0, 0, true, 0, 0, 0, []⟩, ⟨[]⟩, []⟩ with ht
    have hnew : BuiltTxn.new 0 (Layout.new sortCts [⟨[]⟩]) ⟨[]⟩ = some t := by
      show (assignPasses []).bind _ = _
      rw [hpasses]
      rfl
    have hscan : scanTxns 0 [⟨[]⟩] (Layout.new sortCts [⟨[]⟩]) = some ⟨[(t, [])], [], 0⟩ := by
      unfold scanTxns Prep.visit
      rw [List.foldlM_cons, hnew]
      rfl
    have hgroup : (assignLocks sortCts ⟨[(t, [])], [], 0⟩).1 = [] := by
      show (groupLocks _ [] 0 []).1 = []
      rw [groupLocks_nil]
    have hfill : fillLocks (Layout.new sortCts [⟨[]⟩]) [] (t, []) = some t := by
      unfold fillLocks
      exact if_pos (by decide)
    refine ⟨t, ?_, rfl⟩
    unfold prepareTxnsSw
    rw [hscan, Option.bind_eq_bind, Option.bind_some]
    dsimp only
    rw [hgroup, if_pos rfl, List.mapM_cons, hfill]
    simp
  · unfold prepareTxnsSw scanTxns
    rw [List.foldlM_cons]
    unfold Prep.visit BuiltTxn.new
    rw [if_neg (by simp)]
    rfl

end P4db.FastLayout
