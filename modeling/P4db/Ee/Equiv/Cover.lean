import P4db.Ee.Equiv.HotStore

/-!
# The hot set is covered once

Every node builds start and end packets for the keys that it takes for its own.  It compares 8 bits
of the node numbers: a key `256` partitions further on, inside the table or behind its end, is taken
for its own, too.

* `mem_blockKeys_iff`: the keys that a node puts into its packets.
* `covers_iff`: all nodes together have one write and one read for every hot key of the table, by
  its owner, exactly when no hot key is taken by a node that does not own it.
* `not_covers_beyond`: a hot key behind the end of the table that stops its node.
-/

namespace P4db

open SwitchInfo StartEnd

namespace DeclusteredLayout

/-- A key of the layout that is reported hot. -/
def HotKey (layout : DeclusteredLayout) (k : DbKey) : Prop :=
  (layout.virtMap k).isSome = true ∧ layout.isHot k = true

/-- The reverse maps agree with `get_location` on the allocated block. -/
structure Inverse (layout : DeclusteredLayout) : Prop where
  found : ∀ k, layout.HotKey k → (layout.location k).regArrayId < nRegs ∧
    layout.revLookup (layout.location k).regArrayId (layout.location k).regArrayIdx = some k
  placed : ∀ r < nRegs, ∀ s < slotsPerSchedBlock, ∀ k,
    layout.revLookup r (s + slotsPerSchedBlock * layout.blockNum) = some k → layout.HotKey k ∧
      (layout.location k).regArrayId = r ∧
      (layout.location k).regArrayIdx = s + slotsPerSchedBlock * layout.blockNum

theorem Inverse.consistent {layout : DeclusteredLayout} (h : layout.Inverse) :
    layout.Consistent where
  known r hr s hs k hk := (h.placed r hr s hs k hk).1.1
  pos r hr s hs k hk := (h.placed r hr s hs k hk).2

/-- A hot key lies in the block. -/
theorem HotKey.exists_slot {layout : DeclusteredLayout} {k : DbKey} (h : layout.HotKey k)
    (hb : layout.blockNum < 32) :
    ∃ s < slotsPerSchedBlock, (layout.location k).regArrayIdx =
      s + slotsPerSchedBlock * layout.blockNum := by
  have hslot := of_decide_eq_true h.2
  refine ⟨_, hslot, ?_⟩
  show (slotsPerSchedBlock * layout.blockNum + _) % 2 ^ 16 = _
  unfold slotsPerSchedBlock at hslot ⊢
  omega

end DeclusteredLayout

/-! ### The keys of a node -/

section Keys

variable {e : Env} {layout : DeclusteredLayout} {k : DbKey}

theorem mem_blockKeys_iff (hinv : layout.Inverse) (hb : layout.blockNum < 32) :
    k ∈ blockKeys e layout slotsPerSchedBlock ↔
      layout.HotKey k ∧ (e.partInfo.location k).isLocal = true := by
  constructor
  · intro h
    obtain ⟨s, hs, hrow⟩ := List.mem_flatMap.mp h
    obtain ⟨r, hr, hkey⟩ := List.mem_filterMap.mp hrow
    obtain ⟨hrev, hloc⟩ := Option.filter_eq_some_iff.mp hkey
    exact ⟨(hinv.placed r (List.mem_range.mp hr) s (List.mem_range.mp hs) k hrev).1, hloc⟩
  · rintro ⟨hhot, hloc⟩
    obtain ⟨hr, hrev⟩ := hinv.found k hhot
    obtain ⟨s, hs, hidx⟩ := hhot.exists_slot hb
    rw [hidx] at hrev
    refine List.mem_flatMap.mpr ⟨s, List.mem_range.mpr hs,
      List.mem_filterMap.mpr ⟨_, List.mem_range.mpr hr, ?_⟩⟩
    exact Option.filter_eq_some_iff.mpr ⟨hrev, hloc⟩

theorem localKey_placed (hinv : layout.Inverse) {s r : ℕ} (hs : s < slotsPerSchedBlock)
    (hr : r < nRegs) (h : localKey e layout s r = some k) : (layout.location k).regArrayId = r ∧
      (layout.location k).regArrayIdx = s + slotsPerSchedBlock * layout.blockNum :=
  (hinv.placed r hr s hs k (Option.filter_eq_some_iff.mp h).1).2

theorem nodup_rowKeys (hinv : layout.Inverse) {s n : ℕ} (hs : s < slotsPerSchedBlock)
    (hn : n ≤ nRegs) : (rowKeys e layout s n).Nodup := by
  induction n with
  | zero => exact List.nodup_nil
  | succ n ih =>
    rw [rowKeys_succ, List.nodup_append]
    refine ⟨ih (by omega), ?_, ?_⟩
    · cases localKey e layout s n <;> simp
    · rintro k hk k' hk' rfl
      obtain ⟨r, hr, hkey⟩ := List.mem_filterMap.mp hk
      rw [List.mem_range] at hr
      rw [Option.mem_toList] at hk'
      have h₁ := (localKey_placed hinv hs (by omega) hkey).1
      have h₂ := (localKey_placed hinv hs (by omega) hk').1
      omega

theorem nodup_blockKeys (hinv : layout.Inverse) :
    (blockKeys e layout slotsPerSchedBlock).Nodup := by
  unfold blockKeys
  rw [List.nodup_flatMap]
  refine ⟨fun s hs => nodup_rowKeys hinv (List.mem_range.mp hs) (Nat.le_refl _), ?_⟩
  refine List.Pairwise.imp_of_mem ?_ List.nodup_range
  intro s s' hs hs' hne k hk hk'
  obtain ⟨r, hr, hkey⟩ := List.mem_filterMap.mp hk
  obtain ⟨r', hr', hkey'⟩ := List.mem_filterMap.mp hk'
  rw [List.mem_range] at hs hs' hr hr'
  have h₁ := (localKey_placed hinv hs hr hkey).2
  have h₂ := (localKey_placed hinv hs' hr' hkey').2
  omega

theorem map_id_ops {isInit : Bool} {ks : List DbKey} {ops : List HotOp}
    (h : List.Forall₂ (IsOpOn e layout isInit) ks ops) : ops.map (fun pr => pr.1.id) = ks := by
  induction h with
  | nil => rfl
  | cons hop _ ih => rw [List.map_cons, hop.1, ih]

end Keys

/-! ### All nodes -/

/-- The nodes that share a table, with what each reads of its environment. -/
structure Nodes where
  totalSize : ℕ
  numNodes : ℕ
  env : ℕ → Env
  pos : 0 < totalSize
  dvd : numNodes ∣ totalSize
  partInfo_eq : ∀ n < numNodes, (env n).partInfo = ⟨totalSize, numNodes, n % 2 ^ 8⟩

namespace Nodes

variable (N : Nodes)

/-- The node that owns a key of the table. -/
def owner (k : DbKey) : ℕ := k / (N.totalSize / N.numNodes)

/-- The operations of all nodes, with the nodes that built them. -/
def ops (fill : ℕ → Fill) : List (ℕ × HotOp) :=
  (List.range N.numNodes).flatMap fun n => (fill n).ops.map fun pr => (n, pr)

/-- All nodes together have one operation for every hot key of the table, built by its owner. -/
def CoveredBy (layout : DeclusteredLayout) (isInit : Bool) (fill : ℕ → Fill) : Prop :=
  ∀ k, layout.HotKey k → k < N.totalSize → ∃ pr,
    (N.ops fill).filter (fun x => x.2.1.id = k) = [(N.owner k, pr)] ∧
      IsOpOn (N.env (N.owner k)) layout isInit k pr

/-- A packet carries one to `N_OPS` operations on different register arrays. -/
def PacketOk (layout : DeclusteredLayout) (p : Txn × Buf) : Prop :=
  1 ≤ p.1.hot.length ∧ p.1.hot.length ≤ nOps ∧ (p.1.hot.map fun pr => pr.2.regArrayId).Nodup ∧
    Encoded p.2 (baseOffset layout.blockNum) p.1.hot

/-- The start and end packets cover the hot set. -/
structure Covers (layout : DeclusteredLayout) (gen : ℕ → StartEnd.State) : Prop where
  start : N.CoveredBy layout true fun n => (gen n).start
  fin : N.CoveredBy layout false fun n => (gen n).fin
  packets : ∀ n < N.numNodes, ∀ p ∈ (gen n).start.done ++ (gen n).fin.done, PacketOk layout p

variable {N} {layout : DeclusteredLayout} {n : ℕ} {k : DbKey}

theorem owner_lt_iff : N.owner k < N.numNodes ↔ k < N.totalSize := by
  have hmul : N.numNodes * (N.totalSize / N.numNodes) = N.totalSize := Nat.mul_div_cancel' N.dvd
  have hpos : 0 < N.totalSize / N.numNodes := by
    by_contra hzero
    have := N.pos
    rw [Nat.eq_zero_of_not_pos hzero] at hmul
    omega
  unfold owner
  rw [Nat.div_lt_iff_lt_mul hpos, hmul]

theorem isLocal_iff (hn : n < N.numNodes) :
    ((N.env n).partInfo.location k).isLocal = true ↔ N.owner k % 2 ^ 8 = n % 2 ^ 8 := by
  rw [N.partInfo_eq n hn]
  exact decide_eq_true_iff

/-- No hot key is taken by a node that does not own it. -/
def OwnersOnly (N : Nodes) (layout : DeclusteredLayout) : Prop :=
  ∀ k, layout.HotKey k → ∀ n < N.numNodes, N.owner k % 2 ^ 8 = n % 2 ^ 8 → N.owner k = n

theorem mem_ops {fill : ℕ → Fill} {pr : HotOp} :
    (n, pr) ∈ N.ops fill ↔ n < N.numNodes ∧ pr ∈ (fill n).ops := by
  unfold ops
  simp only [List.mem_flatMap, List.mem_range, List.mem_map, Prod.mk.injEq]
  constructor
  · rintro ⟨n', hn', pr', hpr', rfl, rfl⟩
    exact ⟨hn', hpr'⟩
  · rintro ⟨hn, hpr⟩
    exact ⟨n, hn, pr, hpr, rfl, rfl⟩

/-- An entry that is the only one of its key. -/
theorem filter_eq_singleton {α β : Type*} [DecidableEq β] {f : α → β} {l : List α}
    (h : (l.map f).Nodup) {x : α} (hx : x ∈ l) : l.filter (fun y => f y = f x) = [x] := by
  apply List.perm_singleton.mp
  rw [List.perm_ext_iff_of_nodup ((h.of_map f).filter _) (List.nodup_singleton x)]
  intro y
  rw [List.mem_filter, List.mem_singleton, decide_eq_true_iff]
  constructor
  · rintro ⟨hy, heq⟩
    exact List.inj_on_of_nodup_map h hy hx heq
  · rintro rfl
    exact ⟨hx, rfl⟩

section Covered

variable {isInit : Bool} {fill : ℕ → Fill}
  (hops : ∀ n < N.numNodes, List.Forall₂ (IsOpOn (N.env n) layout isInit)
    (blockKeys (N.env n) layout slotsPerSchedBlock) (fill n).ops)
include hops

theorem map_id_allOps : (N.ops fill).map (fun x => x.2.1.id) =
    (List.range N.numNodes).flatMap fun n => blockKeys (N.env n) layout slotsPerSchedBlock := by
  unfold ops
  rw [List.map_flatMap]
  apply List.flatMap_congr
  intro n hn
  rw [List.map_map, ← map_id_ops (hops n (List.mem_range.mp hn))]
  rfl

/-- The operations of all nodes are on different keys. -/
theorem nodup_allOps (hinv : layout.Inverse) (hb : layout.blockNum < 32)
    (howners : N.OwnersOnly layout) : ((N.ops fill).map fun x => x.2.1.id).Nodup := by
  rw [map_id_allOps hops, List.nodup_flatMap]
  refine ⟨fun n _ => nodup_blockKeys hinv, List.Pairwise.imp_of_mem ?_ List.nodup_range⟩
  intro n n' hn hn' hne k hk hk'
  rw [List.mem_range] at hn hn'
  rw [mem_blockKeys_iff hinv hb] at hk hk'
  rw [isLocal_iff hn] at hk
  rw [isLocal_iff hn'] at hk'
  exact hne ((howners k hk.1 n hn hk.2).symm.trans (howners k hk'.1 n' hn' hk'.2))

theorem coveredBy_of_ownersOnly (hinv : layout.Inverse) (hb : layout.blockNum < 32)
    (howners : N.OwnersOnly layout) : N.CoveredBy layout isInit fill := by
  intro k hhot hlt
  have hn := owner_lt_iff.mpr hlt
  have hk : k ∈ blockKeys (N.env (N.owner k)) layout slotsPerSchedBlock :=
    (mem_blockKeys_iff hinv hb).mpr ⟨hhot, (isLocal_iff hn).mpr rfl⟩
  obtain ⟨pr, hpr, hop⟩ := exists_right_of_mem_left (hops _ hn) hk
  have hsingle := filter_eq_singleton (nodup_allOps hops hinv hb howners) (mem_ops.mpr ⟨hn, hpr⟩)
  refine ⟨pr, ?_, hop⟩
  rw [← hsingle]
  simp only [hop.1]

/-- A node that has an operation on a key is its owner. -/
theorem owner_eq_of_coveredBy (hinv : layout.Inverse) (hb : layout.blockNum < 32)
    (hcovered : N.CoveredBy layout isInit fill) (hhot : layout.HotKey k) (hlt : k < N.totalSize)
    (hn : n < N.numNodes) (hlocal : N.owner k % 2 ^ 8 = n % 2 ^ 8) : N.owner k = n := by
  have hk : k ∈ blockKeys (N.env n) layout slotsPerSchedBlock :=
    (mem_blockKeys_iff hinv hb).mpr ⟨hhot, (isLocal_iff hn).mpr hlocal⟩
  obtain ⟨pr, hpr, hop⟩ := exists_right_of_mem_left (hops n hn) hk
  obtain ⟨pr', hsingle, -⟩ := hcovered k hhot hlt
  have hmem : (n, pr) ∈ (N.ops fill).filter (fun x => x.2.1.id = k) :=
    List.mem_filter.mpr ⟨mem_ops.mpr ⟨hn, hpr⟩, decide_eq_true hop.1⟩
  rw [hsingle, List.mem_singleton] at hmem
  exact (congrArg Prod.fst hmem).symm

end Covered

theorem packetOk_of_inv {isInit : Bool} {s r m : ℕ} {ks : List DbKey} {e : Env} {f : Fill}
    (h : FillInv e layout isInit s r m ks f) {p : Txn × Buf} (hp : p ∈ f.done) :
    PacketOk layout p := by
  refine ⟨List.length_pos_iff.mpr (h.nonempty p hp), ?_, (h.packets p hp).1.distinct,
    (h.packets p hp).2⟩
  refine (List.takeWhile_prefix _).length_le.trans ?_
  rw [List.length_map, List.length_range]

/-- The keys that a node takes for its own are in the table exactly if it owns them. -/
theorem slotOk_iff (hinv : layout.Inverse) (hb : layout.blockNum < 32) (hn : n < N.numNodes) :
    (∀ s < slotsPerSchedBlock, ∀ r < nRegs, SlotOk (N.env n) layout s r) ↔
      ∀ k, layout.HotKey k → N.owner k % 2 ^ 8 = n % 2 ^ 8 → k < N.totalSize := by
  have hsize : (N.env n).partInfo.totalSize = N.totalSize := by rw [N.partInfo_eq n hn]
  have hmem : ∀ k, (∃ s < slotsPerSchedBlock, ∃ r < nRegs, localKey (N.env n) layout s r = some k) ↔
      layout.HotKey k ∧ N.owner k % 2 ^ 8 = n % 2 ^ 8 := by
    intro k
    rw [← isLocal_iff hn, ← mem_blockKeys_iff hinv hb]
    simp only [blockKeys, rowKeys, List.mem_flatMap, List.mem_filterMap, List.mem_range]
  unfold SlotOk
  rw [hsize]
  constructor
  · intro h k hhot hlocal
    obtain ⟨s, hs, r, hr, hkey⟩ := (hmem k).mpr ⟨hhot, hlocal⟩
    exact h s hs r hr k hkey
  · intro h s hs r hr k hkey
    obtain ⟨hhot, hlocal⟩ := (hmem k).mp ⟨s, hs, r, hr, hkey⟩
    exact h k hhot hlocal

/-- **The start and end packets.**  For every layout whose maps are inverse to each other, every
block and every table: all nodes build their packets, without an overflow of the pool, and these
have one WRITE and one READ for every hot key of the table, by its owner, exactly when no node takes
a hot key for its own that it does not own. -/
theorem covers_iff (N : Nodes) (bufs : ℕ → Buf) (hinv : layout.Inverse)
    (hb : layout.blockNum < 32) :
    (∃ gen, (∀ n < N.numNodes, genStartEndPackets (N.env n) ⟨0, bufs n⟩ layout = some (gen n)) ∧
        N.Covers layout gen) ↔ N.OwnersOnly layout := by
  have hroom : slotsPerSchedBlock * layout.blockNum + 31 < NewP4db.regSize := by
    unfold slotsPerSchedBlock NewP4db.regSize
    omega
  have hspec := fun n => genStartEndPackets_spec (N.env n) hinv.consistent hroom (bufs n)
  constructor
  · rintro ⟨gen, hgen, hcovers⟩ k hhot n hn hlocal
    have hlt := (slotOk_iff hinv hb hn).mp ((hspec n).1.mp ⟨gen n, hgen n hn⟩) k hhot hlocal
    exact owner_eq_of_coveredBy (fun n hn => ops_of_inv ((hspec n).2 _ (hgen n hn)).start) hinv hb
      hcovers.start hhot hlt hn hlocal
  · intro howners
    have hex : ∀ n, ∃ st, n < N.numNodes → genStartEndPackets (N.env n) ⟨0, bufs n⟩ layout =
        some st := by
      intro n
      by_cases hn : n < N.numNodes
      · obtain ⟨st, hst⟩ := (hspec n).1.mpr ((slotOk_iff hinv hb hn).mpr fun k hhot hlocal =>
          owner_lt_iff.mp (howners k hhot n hn hlocal ▸ hn))
        exact ⟨st, fun _ => hst⟩
      · exact ⟨State.init (N.env n) ⟨0, bufs n⟩ layout, fun h => absurd h hn⟩
    choose gen hgen using hex
    have hinvs := fun n hn => (hspec n).2 _ (hgen n hn)
    refine ⟨gen, hgen, ?_, ?_, ?_⟩
    · exact coveredBy_of_ownersOnly (fun n hn => ops_of_inv (hinvs n hn).start) hinv hb howners
    · exact coveredBy_of_ownersOnly (fun n hn => ops_of_inv (hinvs n hn).fin) hinv hb howners
    · intro n hn p hp
      rcases List.mem_append.mp hp with hp | hp
      · exact packetOk_of_inv (hinvs n hn).start hp
      · exact packetOk_of_inv (hinvs n hn).fin hp

/-- Up to 256 nodes are told apart, when all hot keys are in the table. -/
theorem ownersOnly_of_lt (hnodes : N.numNodes ≤ 2 ^ 8)
    (hlt : ∀ k, layout.HotKey k → k < N.totalSize) : N.OwnersOnly layout := by
  intro k hhot n hn hlocal
  have howner := owner_lt_iff.mpr (hlt k hhot)
  rwa [Nat.mod_eq_of_lt (by omega), Nat.mod_eq_of_lt (by omega)] at hlocal

end Nodes

/-! ### Layouts of the constructor -/

theorem HotLayout.mem_keys_of_hotKey {L : HotLayout} {k : DbKey} (h : L.layout.HotKey k) :
    k ∈ L.keys := by
  by_contra hk
  have hnone : L.layout.virtMap k = none := by
    show (DeclusteredLayout.ofSorted (sortByHeat L.idFreq) L.idFreq).virtMap k = none
    rw [DeclusteredLayout.virtMap_ofSorted]
    apply UnorderedMap.emplaceAll_of_not_mem
    rw [DeclusteredLayout.map_fst_built,
      ((DeclusteredLayout.perm_sortByHeat _).map Prod.fst).mem_iff]
    exact hk
  have hsome := h.1
  rw [hnone] at hsome
  exact absurd hsome (by decide)

/-- The maps of a constructed layout, if no register array overflows. -/
theorem HotLayout.inverse_ofIdFreq {idFreq : List (DbKey × ℕ)} {b : ℕ}
    (hnd : (idFreq.map Prod.fst).Nodup) (hb : b < 32) (hlen : idFreq.length ≤ 2 ^ 16) :
    (HotLayout.ofIdFreq idFreq b hnd hb hlen).layout.Inverse := by
  have htrip := DeclusteredLayout.roundTrip_of_regLoad_le hnd hb fun r _ =>
    (DeclusteredLayout.regLoad_le_length idFreq r).trans hlen
  constructor
  · intro k hhot
    have hmem := mem_keys_of_hotKey hhot
    exact ⟨(location_of_hot hmem hhot.2).1, htrip.revLookup_location k hmem hhot.2⟩
  · intro r _ s hs k hrev
    obtain ⟨hmem, hhot, hpos⟩ := of_revLookup hs hrev
    exact ⟨⟨virtMap_isSome hmem, hhot⟩, hpos⟩

/-- Nodes with a table in which key `k` has the value `100 + k`. -/
def nodesOf (totalSize numNodes : ℕ) (hpos : 0 < totalSize) (hdvd : numNodes ∣ totalSize) :
    Nodes where
  totalSize := totalSize
  numNodes := numNodes
  env n := ⟨⟨0, 0⟩, ⟨totalSize, numNodes, n % 2 ^ 8⟩, fun k => BitVec.ofNat 32 (100 + k), twoOps⟩
  pos := hpos
  dvd := hdvd
  partInfo_eq _ _ := rfl

/-- Two nodes and the keys 0 to 7 of a table of ten. -/
theorem covers_eightKeys :
    ∃ gen, (∀ n < 2, genStartEndPackets ((nodesOf 10 2 (by decide) (by decide)).env n)
      ⟨0, fun _ => 0⟩ eightKeys.layout = some (gen n)) ∧
    (nodesOf 10 2 (by decide) (by decide)).Covers eightKeys.layout gen := by
  refine (Nodes.covers_iff (nodesOf 10 2 (by decide) (by decide)) (fun _ _ => 0)
    (HotLayout.inverse_ofIdFreq _ _ _) eightKeys.block_lt).mpr
    (Nodes.ownersOnly_of_lt (by decide) ?_)
  intro k hhot
  have hall : ∀ k ∈ eightKeys.keys, k < 10 := by decide
  exact hall k (HotLayout.mem_keys_of_hotKey hhot)

/-- Key 3 and a key 256 tables behind it. -/
def beyondKeys : HotLayout :=
  HotLayout.ofIdFreq [(3, 2), (2563, 1)] 0 (by decide) (by decide) (by decide)

/-- A node alone with a table of ten rows takes key 2563 for its own and fails to access its row; so
there is no packet for key 3, either. -/
theorem not_covers_beyond : beyondKeys.layout.Inverse ∧ beyondKeys.layout.HotKey 3 ∧
    genStartEndPackets ((nodesOf 10 1 (by decide) (by decide)).env 0)
      ⟨0, fun _ => 0⟩ beyondKeys.layout = none := by
  have hinv : beyondKeys.layout.Inverse := HotLayout.inverse_ofIdFreq _ _ _
  have hhot : ∀ k ∈ beyondKeys.keys, beyondKeys.layout.HotKey k := by
    unfold DeclusteredLayout.HotKey
    decide +kernel
  refine ⟨hinv, hhot 3 (by decide), Option.eq_none_iff_forall_ne_some.mpr fun st hst => ?_⟩
  have hslots := (genStartEndPackets_spec _ hinv.consistent HotLayout.blockNum_lt _).1.mp ⟨st, hst⟩
  have hlt := (Nodes.slotOk_iff (N := nodesOf 10 1 (by decide) (by decide)) hinv (by decide)
    (by decide)).mp hslots 2563 (hhot 2563 (by decide)) (by decide)
  exact absurd hlt (by decide)

end P4db
