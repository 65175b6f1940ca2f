import P4db.Switch.Equiv.Handle
import P4db.Switch.SchedServer
import Mathlib.Data.Finset.Card
import Mathlib.Data.Finset.Range

/-!
## The scheduler of the switch

`Consistent` is the invariant of the server.  It says what the calls for a tenant are (`callsOf`)
and what its sockets have carried (`exchange`) in terms of the list of blocks that were allocated
for it, and counts the nodes that have been answered.  Each part of an iteration of the event loop
has a lemma:

* `consistent_register`, `consistent_updateCached`, `consistent_respond` and
  `consistent_notifyReady`;
* `Notified`: what the loop over the ready tenants does to the sockets.
-/

namespace P4db

namespace Handle
variable {h : Handle} {t b : ℕ}

theorem mem_toNotify_enqueue {u : ℕ} : u ∈ ((h.start t).enqueue t b).toNotify ↔
    u ∈ h.toNotify ∨ u = t ∧ h.blockQueue b = [] := by
  by_cases hb : h.blockQueue b = []
  · simp [enqueue, start, notify, setQueue, hb, or_comm]
  · simp [enqueue, start, setWaiting, setQueue, hb]

theorem nodup_toNotify_enqueue (hn : h.toNotify.Nodup) :
    ((h.start t).enqueue t b).toNotify.Nodup := by
  by_cases hb : h.blockQueue b = []
  · simpa [enqueue, start, notify, setQueue, hb] using hn.insert
  · simpa [enqueue, start, setWaiting, setQueue, hb] using hn

theorem mem_toNotify_leave {q : List ℕ} {u : ℕ} : u ∈ (h.leave b q).toNotify ↔
    u ∈ h.toNotify ∨ q.head? = some u := by
  cases q with
  | nil => simp [leave, setQueue]
  | cons next q => simp [leave, notify, setWaiting, setQueue, or_comm, eq_comm]

theorem nodup_toNotify_leave (hn : h.toNotify.Nodup) (q : List ℕ) :
    (h.leave b q).toNotify.Nodup := by
  cases q with
  | nil => exact hn
  | cons next q => exact hn.insert

end Handle

namespace SchedServer

/-! ### Calls and messages -/

/-- The calls for a tenant after its first batch, which had the block `b`: for every further batch
the last block is freed and the next is allocated. -/
def callsAfter (b : ℕ) : List ℕ → List HandleCall
  | [] => []
  | b' :: l => .free b :: .alloc b' :: callsAfter b' l

/-- The calls for a tenant whose batches had the given blocks. -/
def callsOf : List ℕ → List HandleCall
  | [] => []
  | b :: l => .alloc b :: callsAfter b l

/-- The messages on a socket, in order: for every batch the response and then a ready message. -/
def exchange (blks : List ℕ) (i : ℕ) : Option AllocResp :=
  if i % 2 = 0 then some ⟨(i / 2 + 1) % 2 ^ 32, blks.getD (i / 2) 0⟩ else none

theorem callsAfter_concat (b b' : ℕ) (l : List ℕ) :
    callsAfter b (l ++ [b']) = callsAfter b l ++ [.free (l.getLastD b), .alloc b'] := by
  induction l generalizing b with
  | nil => rfl
  | cons c l ih => simp [callsAfter, ih, List.getLast?_cons]

theorem callsOf_concat (b' : ℕ) (l : List ℕ) : callsOf (l ++ [b']) =
    callsOf l ++ ((l.getLast?.map HandleCall.free).toList ++ [.alloc b']) := by
  cases l with
  | nil => rfl
  | cons b l => simp [callsOf, callsAfter_concat, List.getLast?_cons, List.getLastD_eq_getLast?]

theorem exchange_append {blks : List ℕ} {i : ℕ} (h : i / 2 < blks.length) (b : ℕ) :
    exchange (blks ++ [b]) i = exchange blks i := by
  simp only [exchange, List.getD_eq_getElem?_getD, List.getElem?_append_left h]

/-- Every other message is a response. -/
theorem length_filterMap_exchange (blks : List ℕ) (m : ℕ) :
    (((List.range m).map (exchange blks)).filterMap id).length = (m + 1) / 2 := by
  induction m with
  | zero => rfl
  | succ m ih =>
    rw [List.range_succ, List.map_append, List.filterMap_append, List.length_append, ih,
      List.map_singleton]
    rcases Nat.mod_two_eq_zero_or_one m with hm | hm
    · simp only [exchange, hm, if_true, List.filterMap_cons, List.filterMap_nil, id,
        List.length_singleton]
      omega
    · simp only [exchange, hm, one_ne_zero, if_false, List.filterMap_cons, List.filterMap_nil, id,
        List.length_nil]
      omega

/-- After a whole number of batches the last two messages are those of the last batch. -/
theorem exists_of_exchange {l : List SchedMsg} {blks : List ℕ} {k : ℕ}
    (h : l.map SchedMsg.resp? = (List.range (2 * (k + 1))).map (exchange blks)) :
    ∃ old w, l = old ++ [.resp ⟨(k + 1) % 2 ^ 32, blks.getD k 0⟩, .ready w] := by
  have hresp : exchange blks (2 * k) = some ⟨(k + 1) % 2 ^ 32, blks.getD k 0⟩ := by
    simp [exchange]
  have hready : exchange blks (2 * k + 1) = none := by
    rw [exchange, if_neg (by omega)]
  rw [Nat.mul_succ, List.range_succ, List.range_succ, List.append_assoc, List.map_append,
    List.map_eq_append_iff] at h
  obtain ⟨old, last, rfl, -, hlast⟩ := h
  simp only [List.cons_append, List.nil_append, List.map_cons, List.map_nil, hresp, hready] at hlast
  match last, hlast with
  | [.resp r, .ready w], hlast =>
    simp only [List.map_cons, SchedMsg.resp?, List.cons.injEq, Option.some.injEq] at hlast
    exact ⟨old, w, by rw [hlast.1]⟩
  | [.resp _, .resp _], hlast => simp [SchedMsg.resp?] at hlast
  | .ready _ :: _, hlast => simp [SchedMsg.resp?] at hlast
  | [], hlast => simp at hlast
  | [_], hlast => simp at hlast
  | _ :: _ :: _ :: _, hlast => simp at hlast

/-! ### One tenant -/

/-- The nodes that have been answered for the newest batch of `k`. -/
def answered (n k : ℕ) (sent : ℕ → List SchedMsg) : Finset ℕ :=
  {i ∈ Finset.range n | ((sent i).length + 1) / 2 = k}

/-- What the server holds of a tenant `t` with `n` nodes, where `blks` are the blocks of its
batches: its entry of `tenant_info`, the calls for it, the messages to its nodes, and how often it
was notified. -/
structure Account (n t : ℕ) (blks : List ℕ) (info : TenantInfo) (calls : List HandleCall)
    (sent : ℕ → List SchedMsg) (rounds : ℕ) : Prop where
  calls_eq : calls = callsOf blks
  cached : info.cached = ⟨blks.length % 2 ^ 32, blks.getLast?.getD 0⟩
  messages : ∀ i < n, (sent i).map SchedMsg.resp? = (List.range (sent i).length).map (exchange blks)
  half_length : ∀ i < n, (sent i).length / 2 = rounds
  length_le : ∀ i < n, ((sent i).length + 1) / 2 ≤ blks.length
  uses : blks ≠ [] → info.nCachedUses = (answered n blks.length sent).card
  expected : blks ≠ [] → info.expectedNFds = n
  nodup : info.sockFds.Nodup
  sockets : ∀ p ∈ info.sockFds, p.tenant = t ∧ p.node < n
  mem_sockets : ∀ i < n, sent i ≠ [] → ⟨t, i⟩ ∈ info.sockFds

namespace Account

variable {n t rounds : ℕ} {blks : List ℕ} {info : TenantInfo} {calls : List HandleCall}
  {sent : ℕ → List SchedMsg}

theorem init (n t : ℕ) : Account n t [] ⟨⟨0, 0⟩, 0, 0, []⟩ [] (fun _ => []) 0 where
  calls_eq := rfl
  cached := rfl
  messages _ _ := rfl
  half_length _ _ := rfl
  length_le _ _ := by simp
  uses h := absurd rfl h
  expected h := absurd rfl h
  nodup := List.nodup_nil
  sockets := nofun
  mem_sockets _ _ h := absurd rfl h

theorem register (h : Account n t blks info calls sent rounds) {i : ℕ} (hi : i < n) :
    Account n t blks { info with sockFds := info.sockFds.insert ⟨t, i⟩, expectedNFds := n }
      calls sent rounds where
  __ := h
  expected _ := rfl
  nodup := h.nodup.insert
  sockets p hp := by
    rcases List.mem_insert_iff.mp hp with rfl | hp
    · exact ⟨rfl, hi⟩
    · exact h.sockets p hp
  mem_sockets j hj hne := List.mem_insert_of_mem (h.mem_sockets j hj hne)

/-- The next batch gets a block; nobody has been answered for it. -/
theorem renew (h : Account n t blks info calls sent rounds) (hexp : info.expectedNFds = n) (b : ℕ) :
    Account n t (blks ++ [b])
      { info with cached := ⟨(blks.length + 1) % 2 ^ 32, b⟩, nCachedUses := 0 }
      (calls ++ ((blks.getLast?.map .free).toList ++ [.alloc b])) sent rounds where
  __ := h
  calls_eq := by rw [callsOf_concat, h.calls_eq]
  cached := by simp
  messages i hi := by
    rw [h.messages i hi]
    apply List.map_congr_left
    intro j hj
    have hle := h.length_le i hi
    rw [List.mem_range] at hj
    exact (exchange_append (by omega) b).symm
  length_le i hi := by
    have hle := h.length_le i hi
    rw [List.length_append]
    omega
  uses _ := by
    rw [eq_comm, Finset.card_eq_zero, answered, Finset.filter_eq_empty_iff]
    intro i hi
    have hle := h.length_le i (Finset.mem_range.mp hi)
    rw [List.length_append, List.length_singleton]
    omega
  expected _ := hexp

/-- A node that has not been answered for the newest batch gets the response. -/
theorem respond (h : Account n t blks info calls sent rounds) {i : ℕ} (hi : i < n)
    (hlen : (sent i).length + 2 = 2 * blks.length) (hmem : ⟨t, i⟩ ∈ info.sockFds) :
    Account n t blks { info with nCachedUses := info.nCachedUses + 1 } calls
      (Function.update sent i (sent i ++ [.resp info.cached])) rounds := by
  have hne : blks ≠ [] := by
    rintro rfl
    simp at hlen
  have hlen' : ∀ j, (Function.update sent i (sent i ++ [SchedMsg.resp info.cached]) j).length =
      (sent j).length + if j = i then 1 else 0 := by
    intro j
    rcases eq_or_ne j i with rfl | hj
    · simp
    · simp [hj]
  refine { h with
    messages := ?_, half_length := ?_, length_le := ?_, uses := ?_, mem_sockets := ?_ }
  · intro j hj
    rcases eq_or_ne j i with rfl | hji
    · have hresp : exchange blks (sent j).length = some info.cached := by
        have hhalf : (sent j).length / 2 = blks.length - 1 := by omega
        rw [exchange, if_pos (by omega), h.cached, hhalf, List.getLast?_eq_getElem?,
          List.getD_eq_getElem?_getD, Nat.sub_add_cancel (List.length_pos_iff.mpr hne)]
      rw [Function.update_self, List.map_append, h.messages j hj, List.length_append,
        List.length_singleton, List.range_succ, List.map_append, List.map_singleton,
        List.map_singleton, hresp]
      rfl
    · rw [Function.update_of_ne hji]
      exact h.messages j hj
  · intro j hj
    have := h.half_length j hj
    rw [hlen']
    split_ifs with heq
    · subst heq
      omega
    · exact this
  · intro j hj
    have := h.length_le j hj
    rw [hlen']
    split_ifs with heq
    · subst heq
      omega
    · exact this
  · intro _
    have hins : answered n blks.length (Function.update sent i (sent i ++ [.resp info.cached])) =
        insert i (answered n blks.length sent) := by
      ext j
      simp only [answered, Finset.mem_filter, Finset.mem_range, Finset.mem_insert, hlen']
      rcases eq_or_ne j i with rfl | hj
      · rw [if_pos rfl]
        exact ⟨fun _ => .inl rfl, fun _ => ⟨hi, by omega⟩⟩
      · simp [hj]
    rw [hins, Finset.card_insert_of_notMem, ← h.uses hne]
    simp only [answered, Finset.mem_filter, not_and]
    omega
  · intro j hj hne'
    rcases eq_or_ne j i with rfl | hji
    · exact hmem
    · rw [Function.update_of_ne hji] at hne'
      exact h.mem_sockets j hj hne'

/-- The server has used the cached response for every node. -/
theorem all_answered (h : Account n t blks info calls sent rounds) (hne : blks ≠ [])
    (huses : info.nCachedUses = info.expectedNFds) {i : ℕ} (hi : i < n) :
    ((sent i).length + 1) / 2 = blks.length := by
  rw [h.uses hne, h.expected hne, answered] at huses
  have hcard : (Finset.range n).card = n := Finset.card_range n
  have hall := Finset.card_filter_eq_iff.mp (huses.trans hcard.symm)
  exact hall i (Finset.mem_range.mpr hi)

/-- All nodes have been answered, and get a ready message. -/
theorem notify (h : Account n t blks info calls sent rounds) (hlt : rounds < blks.length)
    (hall : ∀ i < n, ((sent i).length + 1) / 2 = blks.length) {w : ℕ} {sent' : ℕ → List SchedMsg}
    (hsent' : ∀ i < n, sent' i = sent i ++ [.ready w]) :
    Account n t blks info calls sent' (rounds + 1) := by
  have hne : blks ≠ [] := by
    rintro rfl
    simp at hlt
  -- the response for the newest batch is the last message
  have hlen : ∀ i < n, (sent i).length + 1 = 2 * blks.length := by
    intro i hi
    have h₁ := h.half_length i hi
    have h₂ := hall i hi
    omega
  have hlen' : ∀ i < n, (sent' i).length = 2 * blks.length := by
    intro i hi
    rw [hsent' i hi, List.length_append, List.length_singleton]
    exact hlen i hi
  refine { h with
    messages := ?_, half_length := ?_, length_le := ?_, uses := ?_, mem_sockets := ?_ }
  · intro i hi
    have hnone : exchange blks (sent i).length = none := by
      have := hlen i hi
      rw [exchange, if_neg (by omega)]
    rw [hsent' i hi, List.map_append, h.messages i hi, List.length_append, List.length_singleton,
      List.range_succ, List.map_append, List.map_singleton, List.map_singleton, hnone]
    rfl
  · intro i hi
    have h₁ := h.half_length i hi
    have h₂ := hlen i hi
    rw [hlen' i hi]
    omega
  · intro i hi
    rw [hlen' i hi]
    omega
  · intro _
    rw [h.uses hne]
    congr 1
    apply Finset.filter_congr
    intro i hi
    rw [Finset.mem_range] at hi
    have h₁ := hall i hi
    rw [hlen' i hi]
    omega
  · intro i hi _
    apply h.mem_sockets i hi
    intro hnil
    have := hlen i hi
    rw [hnil, List.length_nil] at this
    omega

end Account

/-! ### The invariant -/

/-- The state of the server, when tenant `t` has `c t` nodes.  A tenant in the ready set has been
made ready but not been notified for its newest batch. -/
structure Consistent (c : ℕ → ℕ) (s : SchedServer) : Prop where
  queued : s.handle.Queued fun t => (s.blocks t).getLast?
  account : ∀ t, Account (c t) t (s.blocks t) (s.tenantInfo t) (s.calls t) (fun i => s.sent ⟨t, i⟩)
    (s.rounds t)
  nodup_ready : s.handle.toNotify.Nodup
  ready : ∀ {t}, t ∈ s.handle.toNotify → 1 ≤ s.handle.nReady t ∧ s.rounds t < (s.blocks t).length
  told : ∀ {t}, s.blocks t ≠ [] → (s.blocks t).length ≤ s.rounds t → 1 ≤ s.handle.nReady t

variable {c : ℕ → ℕ} {s : SchedServer} {p : Peer} {req : AllocReq}

theorem consistent_init (c : ℕ → ℕ) : Consistent c init where
  queued := Handle.queued_init
  account t := .init (c t) t
  nodup_ready := List.nodup_nil
  ready := nofun
  told h := absurd rfl h

theorem tenantInfo_register (s : SchedServer) (p : Peer) (req : AllocReq) :
    (s.register p req).tenantInfo = Function.update s.tenantInfo req.tenantId
      { s.tenantInfo req.tenantId with
        sockFds := (s.tenantInfo req.tenantId).sockFds.insert p
        expectedNFds := req.tenantNumNodes } := rfl

theorem consistent_register (h : Consistent c s) (hp : p.node < c p.tenant)
    (htid : req.tenantId = p.tenant) (hnum : req.tenantNumNodes = c p.tenant) :
    Consistent c (s.register p req) where
  queued := h.queued
  account u := by
    rw [tenantInfo_register, htid, hnum]
    rcases eq_or_ne u p.tenant with rfl | hu
    · rw [Function.update_self]
      exact (h.account p.tenant).register hp
    · rw [Function.update_of_ne hu]
      exact h.account u
  nodup_ready := h.nodup_ready
  ready := h.ready
  told := h.told

/-! ### A new batch -/

/-- The last block, if there is one, is freed. -/
theorem freeLast_eq (h : Consistent c s) {t : ℕ} (ht : req.tenantId = t)
    (hfree : req.blkToFree = (s.blocks t).getLast?.getD noBlock)
    (hrounds : s.rounds t = (s.blocks t).length) : ∃ h' : Handle,
      s.freeLast req = some { s with
        handle := h'
        calls := Function.update s.calls t (s.calls t ++ ((s.blocks t).getLast?.map .free).toList) }
          ∧
      h'.Queued (Function.update (fun u => (s.blocks u).getLast?) t none) ∧ h'.toNotify.Nodup ∧
      (∀ u, s.handle.nReady u ≤ h'.nReady u) ∧
      ∀ u ∈ h'.toNotify, u ∈ s.handle.toNotify ∨
        u ≠ t ∧ s.blocks u ≠ [] ∧ s.handle.nReady u = 0 ∧ 1 ≤ h'.nReady u := by
  cases hlast : (s.blocks t).getLast? with
  | none =>
    refine ⟨s.handle, ?_, ?_, h.nodup_ready, fun _ => le_rfl, fun u hu => .inl hu⟩
    · simp [freeLast, hfree, hlast]
    · have hsame : Function.update (fun u => (s.blocks u).getLast?) t none =
          fun u => (s.blocks u).getLast? := Function.update_eq_self_iff.mpr hlast.symm
      rw [hsame]
      exact h.queued
  | some b =>
    have hne : s.blocks t ≠ [] := by
      intro hnil
      simp [hnil] at hlast
    obtain ⟨q, hq, heq⟩ := Handle.handleFree_eq h.queued hlast (h.told hne hrounds.ge)
    have hb : b ≠ noBlock := by
      have := (h.queued.valid hlast).2.2
      simp only [nBlocks, noBlock] at this ⊢
      omega
    refine ⟨s.handle.leave b q, ?_, Handle.queued_leave h.queued hlast hq,
      Handle.nodup_toNotify_leave h.nodup_ready q, fun u => ?_, fun u hu => ?_⟩
    · simp only [hlast, Option.getD_some] at hfree
      simp [freeLast, hfree, hb, ht, heq, call]
    · rw [Handle.nReady_leave]
      split_ifs <;> omega
    · rcases Handle.mem_toNotify_leave.mp hu with hu | hu
      · exact .inl hu
      · -- the tenant that was behind comes to the front
        right
        have hbehind : u ∈ (s.handle.blockQueue b).tail := by
          simpa [hq] using List.mem_of_head? hu
        have hblock := h.queued.mem_queue.mp (List.mem_of_mem_tail hbehind)
        refine ⟨?_, ?_, (h.queued.behind hbehind).2, ?_⟩
        · have hnodup := h.queued.nodup b
          rw [hq, List.nodup_cons] at hnodup
          rintro rfl
          exact hnodup.1 (List.mem_of_head? hu)
        · intro hnil
          simp [hnil] at hblock
        · rw [Handle.nReady_leave, if_pos hu]
          omega

/-- The server after a block `b` was allocated for the next batch of tenant `t`. -/
def renewed (s : SchedServer) (t b batchNum : ℕ) (handle : Handle) : SchedServer :=
  { s with
    handle := handle
    calls := Function.update s.calls t
      (s.calls t ++ (((s.blocks t).getLast?.map .free).toList ++ [.alloc b]))
    tenantInfo := Function.update s.tenantInfo t
      { s.tenantInfo t with cached := ⟨batchNum, b⟩, nCachedUses := 0 } }

theorem blocks_renewed (s : SchedServer) (t b batchNum : ℕ) (handle : Handle) :
    (s.renewed t b batchNum handle).blocks = Function.update s.blocks t (s.blocks t ++ [b]) := by
  funext u
  rcases eq_or_ne u t with rfl | hu
  · simp only [blocks, renewed, Function.update_self, List.filterMap_append]
    cases ((s.calls u).filterMap HandleCall.alloc?).getLast? <;> rfl
  · simp [blocks, renewed, hu]

/-- The first request for a batch frees the last block and allocates the next. -/
theorem updateCached_eq (h : Consistent c s) {t : ℕ} (htid : req.tenantId = t)
    (ht : t ≠ noTenant ∧ t < nMaxTenants)
    (hbatch : req.batchNum = ((s.blocks t).length + 1) % 2 ^ 32)
    (hfree : req.blkToFree = (s.blocks t).getLast?.getD noBlock)
    (hrounds : s.rounds t = (s.blocks t).length) (now : ℕ) :
    ∃ b handle, s.updateCached req now = some (s.renewed t b req.batchNum handle) ∧
      handle.Queued (Function.update (fun u => (s.blocks u).getLast?) t (some b)) ∧
      handle.toNotify.Nodup ∧ (∀ u ≠ t, s.handle.nReady u ≤ handle.nReady u) ∧
      ∀ u ∈ handle.toNotify, u ∈ s.handle.toNotify ∨
        1 ≤ handle.nReady u ∧ (u ≠ t → s.blocks u ≠ [] ∧ s.handle.nReady u = 0) := by
  obtain ⟨h', hfreeLast, hq', hnodup', hmono, hnew⟩ := freeLast_eq h htid hfree hrounds
  obtain ⟨b, hb, blks, hall, halloc⟩ := Handle.handleAlloc_eq hq' ht (Function.update_self ..)
    req.startDelayNs req.durationNs now
  have hq'' := Handle.queued_enqueue hq' ht (Function.update_self ..) hb hall
  rw [Function.update_idem] at hq''
  refine ⟨b, _, ?_, hq'', Handle.nodup_toNotify_enqueue hnodup', fun u hu => ?_, fun u hu => ?_⟩
  · have hne : (s.tenantInfo t).cached.batchNum ≠ req.batchNum := by
      rw [(h.account t).cached, hbatch]
      dsimp only
      omega
    simp [updateCached, htid, hne, hfreeLast, allocNext, halloc, call, setInfo, renewed]
  · dsimp only
    rw [Handle.nReady_enqueue, if_neg hu]
    exact hmono u
  · dsimp only at hu ⊢
    rw [Handle.nReady_enqueue]
    rcases Handle.mem_toNotify_enqueue.mp hu with hu | ⟨rfl, hempty⟩
    · rcases hnew u hu with hu | ⟨hne, hblocks, hready, hready'⟩
      · exact .inl hu
      · rw [if_neg hne]
        exact .inr ⟨hready', fun _ => ⟨hblocks, hready⟩⟩
    · simp [hempty]

theorem consistent_updateCached (h : Consistent c s) {t : ℕ} (htid : req.tenantId = t)
    (hexp : (s.tenantInfo t).expectedNFds = c t) (ht : t ≠ noTenant ∧ t < nMaxTenants)
    (hbatch : req.batchNum = ((s.blocks t).length + 1) % 2 ^ 32)
    (hfree : req.blkToFree = (s.blocks t).getLast?.getD noBlock)
    (hrounds : s.rounds t = (s.blocks t).length) (now : ℕ) :
    ∃ b handle, s.updateCached req now = some (s.renewed t b req.batchNum handle) ∧
      Consistent c (s.renewed t b req.batchNum handle) := by
  obtain ⟨b, handle, heq, hq, hnodup, hmono, hnew⟩ :=
    updateCached_eq h htid ht hbatch hfree hrounds now
  refine ⟨b, handle, heq, ?_⟩
  have hblocks := blocks_renewed s t b req.batchNum handle
  constructor
  · have hlast : (fun u => ((s.renewed t b req.batchNum handle).blocks u).getLast?) =
        Function.update (fun u => (s.blocks u).getLast?) t (some b) := by
      funext u
      rw [hblocks]
      rcases eq_or_ne u t with rfl | hu
      · simp
      · simp [hu]
    rw [hlast]
    exact hq
  · intro u
    rw [hblocks]
    simp only [renewed]
    rcases eq_or_ne u t with rfl | hu
    · simp only [Function.update_self]
      rw [hbatch]
      exact (h.account u).renew hexp b
    · simp only [Function.update_of_ne hu]
      exact h.account u
  · exact hnodup
  · intro u hu
    rw [hblocks]
    show 1 ≤ handle.nReady u ∧ s.rounds u < _
    rcases eq_or_ne u t with rfl | hut
    · rw [Function.update_self, List.length_append, List.length_singleton]
      rcases hnew u hu with hold | ⟨hready, -⟩
      · have := (h.ready hold).2
        omega
      · exact ⟨hready, by omega⟩
    · rw [Function.update_of_ne hut]
      rcases hnew u hu with hold | ⟨hready, hwas⟩
      · have := h.ready hold
        exact ⟨this.1.trans (hmono u hut), this.2⟩
      · -- it was not ready before, so it has not been notified
        obtain ⟨hne, hzero⟩ := hwas hut
        refine ⟨hready, not_le.mp fun hle => ?_⟩
        have := h.told hne hle
        omega
  · intro u hne hle
    rw [hblocks] at hne hle
    show 1 ≤ handle.nReady u
    change _ ≤ s.rounds u at hle
    rcases eq_or_ne u t with rfl | hut
    · rw [Function.update_self, List.length_append, List.length_singleton] at hle
      omega
    · rw [Function.update_of_ne hut] at hne hle
      exact (h.told hne hle).trans (hmono u hut)

/-- The server has no room for more tenants. -/
theorem lt_nMaxTenants_of_updateCached {s' : SchedServer} {now : ℕ}
    (hne : (s.tenantInfo req.tenantId).cached.batchNum ≠ req.batchNum)
    (hupd : s.updateCached req now = some s') : req.tenantId < nMaxTenants := by
  rw [updateCached, if_pos hne, Option.bind_eq_some_iff] at hupd
  obtain ⟨s₁, -, halloc⟩ := hupd
  rw [allocNext, Option.map_eq_some_iff] at halloc
  obtain ⟨r, halloc, -⟩ := halloc
  rw [Handle.handleAlloc, Option.ite_none_right_eq_some] at halloc
  exact halloc.1.2.1

/-! ### The response -/

theorem consistent_respond (h : Consistent c s) (hp : p.node < c p.tenant)
    (htid : req.tenantId = p.tenant) (hlen : (s.sent p).length + 2 = 2 * (s.blocks p.tenant).length)
    (hmem : p ∈ (s.tenantInfo p.tenant).sockFds) : Consistent c (s.respond p req) where
  queued := h.queued
  account u := by
    simp only [respond, send, setInfo, htid]
    rcases eq_or_ne u p.tenant with rfl | hu
    · have hacc := (h.account p.tenant).respond hp hlen hmem
      have hsent : (fun i => Function.update s.sent p
          (s.sent p ++ [.resp (s.tenantInfo p.tenant).cached]) ⟨p.tenant, i⟩) =
          Function.update (fun i => s.sent ⟨p.tenant, i⟩) p.node
            (s.sent p ++ [.resp (s.tenantInfo p.tenant).cached]) := by
        funext i
        rcases eq_or_ne i p.node with rfl | hi
        · simp
        · have hne : (⟨p.tenant, i⟩ : Peer) ≠ p := fun heq => hi (congrArg Peer.node heq)
          simp [hi, hne]
      rw [hsent, Function.update_self]
      exact hacc
    · have hsent : ∀ i, (⟨u, i⟩ : Peer) ≠ p := fun i heq => hu (congrArg Peer.tenant heq)
      simp only [Function.update_of_ne hu, Function.update_of_ne (hsent _)]
      exact h.account u
  nodup_ready := h.nodup_ready
  ready := h.ready
  told := h.told

/-! ### Notification -/

/-- Sending one message on several sockets. -/
theorem foldl_send (m : SchedMsg) {fds : List Peer} (hfds : fds.Nodup) (s : SchedServer) :
    fds.foldl (fun s fd => s.send fd m) s = { s with
      stream := fun p => if p ∈ fds then s.stream p ++ m.words else s.stream p
      sent := fun p => if p ∈ fds then s.sent p ++ [m] else s.sent p } := by
  induction fds generalizing s with
  | nil => simp
  | cons fd fds ih =>
    rw [List.nodup_cons] at hfds
    rw [List.foldl_cons, ih hfds.2]
    simp only [send, List.mem_cons]
    congr 1 <;> funext q
    · rcases eq_or_ne q fd with rfl | hq
      · simp [hfds.1]
      · simp [hq]
    · rcases eq_or_ne q fd with rfl | hq
      · simp [hfds.1]
      · simp [hq]

/-- What a loop over ready tenants does to the sockets of the nodes: some have got a ready message
after a response, which was for the newest batch. -/
structure Notified (c : ℕ → ℕ) (s s' : SchedServer) : Prop where
  calls : s'.calls = s.calls
  socket : ∀ p : Peer, p.node < c p.tenant →
    s'.sent p = s.sent p ∧ s'.stream p = s.stream p ∨
    ∃ w, s'.sent p = s.sent p ++ [.ready w] ∧ s'.stream p = s.stream p ++ [w] ∧
      (s.sent p).length % 2 = 1 ∧ s'.rounds p.tenant = (s.blocks p.tenant).length

theorem Notified.blocks {s' : SchedServer} (h : Notified c s s') : s'.blocks = s.blocks := by
  unfold SchedServer.blocks
  rw [h.calls]

theorem Notified.refl (c : ℕ → ℕ) (s : SchedServer) : Notified c s s :=
  ⟨rfl, fun _ _ => .inl ⟨rfl, rfl⟩⟩

/-- The server after it notified a tenant. -/
def notified (s : SchedServer) (t w : ℕ) : SchedServer :=
  { s with
    handle := s.handle.eraseReady t
    stream := fun p => if p ∈ (s.tenantInfo t).sockFds then s.stream p ++ [w] else s.stream p
    sent := fun p => if p ∈ (s.tenantInfo t).sockFds then s.sent p ++ [.ready w] else s.sent p
    rounds := Function.update s.rounds t (s.rounds t + 1) }

theorem notifyTenant_eq (h : Consistent c s) (t w : ℕ) : notifyTenant w s t =
    if (s.tenantInfo t).sockFds.length = (s.tenantInfo t).expectedNFds ∧
      (s.tenantInfo t).nCachedUses = (s.tenantInfo t).expectedNFds then s.notified t w else s := by
  unfold notifyTenant
  dsimp only
  rw [foldl_send _ (h.account t).nodup]
  rfl

/-- When the server has used the cached response for every node of a tenant, all have a socket. -/
theorem mem_sockFds_of_uses (h : Consistent c s) {t : ℕ} (hne : s.blocks t ≠ [])
    (huses : (s.tenantInfo t).nCachedUses = (s.tenantInfo t).expectedNFds) (p : Peer) :
    p ∈ (s.tenantInfo t).sockFds ↔ p.tenant = t ∧ p.node < c t := by
  refine ⟨(h.account t).sockets p, ?_⟩
  rintro ⟨rfl, hp⟩
  apply (h.account p.tenant).mem_sockets p.node hp
  have hall := (h.account p.tenant).all_answered hne huses hp
  have hpos := List.length_pos_iff.mpr hne
  intro hnil
  simp only [hnil, List.length_nil] at hall
  omega

theorem consistent_notified (h : Consistent c s) {t : ℕ} (ht : t ∈ s.handle.toNotify)
    (huses : (s.tenantInfo t).nCachedUses = (s.tenantInfo t).expectedNFds) (w : ℕ) :
    Consistent c (s.notified t w) := by
  obtain ⟨hready, hlt⟩ := h.ready ht
  have hne : s.blocks t ≠ [] := List.length_pos_iff.mp (Nat.zero_lt_of_lt hlt)
  have hmem := mem_sockFds_of_uses h hne huses
  constructor
  · exact { h.queued with }
  · intro u
    simp only [notified, hmem]
    rcases eq_or_ne u t with rfl | hu
    · rw [Function.update_self]
      refine (h.account u).notify hlt
        (fun i hi => (h.account u).all_answered hne huses hi) (w := w) ?_
      intro i hi
      rw [if_pos ⟨rfl, hi⟩]
    · simp only [hu, false_and, if_false, Function.update_of_ne hu]
      exact h.account u
  · exact h.nodup_ready.erase t
  · intro u hu
    have hu' := h.nodup_ready.mem_erase_iff.mp hu
    simp only [notified, Function.update_of_ne hu'.1]
    exact h.ready hu'.2
  · intro u hne' hle
    rcases eq_or_ne u t with rfl | hut
    · exact hready
    · simp only [notified, Function.update_of_ne hut] at hle
      exact h.told hne' hle

theorem notified_notified (h : Consistent c s) {t : ℕ} (ht : t ∈ s.handle.toNotify)
    (huses : (s.tenantInfo t).nCachedUses = (s.tenantInfo t).expectedNFds) (w : ℕ) :
    Notified c s (s.notified t w) := by
  obtain ⟨hready, hlt⟩ := h.ready ht
  have hne : s.blocks t ≠ [] := List.length_pos_iff.mp (Nat.zero_lt_of_lt hlt)
  have hmem := mem_sockFds_of_uses h hne huses
  refine ⟨rfl, fun p hp => ?_⟩
  simp only [notified, hmem]
  rcases eq_or_ne p.tenant t with rfl | hu
  · have hall := (h.account p.tenant).all_answered hne huses hp
    have hhalf := (h.account p.tenant).half_length p.node hp
    right
    simp only [hp, and_self, if_true, Function.update_self]
    change ((s.sent p).length + 1) / 2 = _ at hall
    change (s.sent p).length / 2 = _ at hhalf
    exact ⟨w, rfl, rfl, by omega, by omega⟩
  · simp [hu]

/-- A tenant that is still in the ready set has not been notified by the loop. -/
theorem Notified.trans {s' s'' : SchedServer} {t : ℕ} (h₁ : Notified c s s')
    (h₂ : Notified c s' s'')
    (h : ∀ u ≠ t, s''.rounds u = s'.rounds u ∧
      ∀ i, s''.sent ⟨u, i⟩ = s'.sent ⟨u, i⟩ ∧ s''.stream ⟨u, i⟩ = s'.stream ⟨u, i⟩)
    (hlt : s'.rounds t < (s'.blocks t).length) : Notified c s s'' := by
  refine ⟨h₂.calls.trans h₁.calls, fun p hp => ?_⟩
  have hblocks := h₁.blocks
  rcases eq_or_ne p.tenant t with rfl | hu
  · rcases h₁.socket p hp with ⟨hsent, hstream⟩ | ⟨-, -, -, -, hrounds⟩
    · have := h₂.socket p hp
      rwa [hsent, hstream, hblocks] at this
    · rw [hblocks] at hlt
      omega
  · obtain ⟨hrounds, hsame⟩ := h p.tenant hu
    obtain ⟨hsent, hstream⟩ := hsame p.node
    have := h₁.socket p hp
    rwa [← hsent, ← hstream, ← hrounds] at this

/-- The loop over the ready tenants. -/
theorem consistent_foldl_notifyTenant (w : ℕ) {s₀ : SchedServer} (ts : List ℕ) (hts : ts.Nodup)
    (h : Consistent c s) (h₀ : Notified c s₀ s) (hmem : ∀ t ∈ ts, t ∈ s.handle.toNotify) :
    Consistent c (ts.foldl (notifyTenant w) s) ∧ Notified c s₀ (ts.foldl (notifyTenant w) s) := by
  induction ts generalizing s with
  | nil => exact ⟨h, h₀⟩
  | cons t ts ih =>
    rw [List.nodup_cons] at hts
    have ht := hmem t List.mem_cons_self
    have hrest := fun u hu => hmem u (List.mem_cons_of_mem t hu)
    rw [List.foldl_cons, notifyTenant_eq h]
    split_ifs with hcond
    · refine ih hts.2 (consistent_notified h ht hcond.2 w) ?_ fun u hu => ?_
      · refine h₀.trans (t := t) (notified_notified h ht hcond.2 w) (fun u hu => ?_) (h.ready ht).2
        have hne : ∀ i, ⟨u, i⟩ ∉ (s.tenantInfo t).sockFds :=
          fun i hi => hu ((h.account t).sockets _ hi).1
        simp [notified, hu, hne]
      · have hut : u ≠ t := fun heq => hts.1 (heq ▸ hu)
        exact (h.nodup_ready.mem_erase_iff).mpr ⟨hut, hrest u hu⟩
    · exact ih hts.2 h h₀ hrest

theorem consistent_notifyReady (h : Consistent c s) (req : AllocReq) :
    Consistent c (s.notifyReady req) ∧ Notified c s (s.notifyReady req) := by
  unfold notifyReady
  dsimp only
  split_ifs
  · exact consistent_foldl_notifyTenant _ _ h.nodup_ready h (.refl c s) fun _ => id
  · exact ⟨h, .refl c s⟩

/-! ### One iteration of the event loop -/

/-- What a request of node `p` does to the server: `p` is answered for the newest batch, which may
be a new one, and then the loop over the ready tenants runs. -/
structure Answered (c : ℕ → ℕ) (p : Peer) (s s₁ s' : SchedServer) : Prop where
  consistent : Consistent c s'
  notified : Notified c s₁ s'
  sent : s₁.sent = Function.update s.sent p (s.sent p ++
    [.resp ⟨(s₁.blocks p.tenant).length % 2 ^ 32, (s₁.blocks p.tenant).getLast?.getD 0⟩])
  stream : s₁.stream = Function.update s.stream p (s.stream p ++
    [(s₁.blocks p.tenant).length % 2 ^ 32, (s₁.blocks p.tenant).getLast?.getD 0])

theorem tenantInfo_register_self (htid : req.tenantId = p.tenant)
    (hnum : req.tenantNumNodes = c p.tenant) :
    (s.register p req).tenantInfo p.tenant = { s.tenantInfo p.tenant with
      sockFds := (s.tenantInfo p.tenant).sockFds.insert p, expectedNFds := c p.tenant } := by
  rw [tenantInfo_register, htid, hnum, Function.update_self]

/-- The rest of the iteration, once the cache is up to date. -/
theorem answered_of_updateCached {s₂ : SchedServer} {now : ℕ}
    (hupd : (s.register p req).updateCached req now = some s₂) (h₂ : Consistent c s₂)
    (hp : p.node < c p.tenant) (htid : req.tenantId = p.tenant) (hsent : s₂.sent = s.sent)
    (hstream : s₂.stream = s.stream) (hmem : p ∈ (s₂.tenantInfo p.tenant).sockFds)
    (hlen : (s.sent p).length + 2 = 2 * (s₂.blocks p.tenant).length) :
    ∃ s₁ s', s.onRequest p req now = some s' ∧ Answered c p s s₁ s' ∧ s₁.blocks = s₂.blocks := by
  have hresp := consistent_respond h₂ hp htid (by rwa [hsent]) hmem
  obtain ⟨hcons, hnot⟩ := consistent_notifyReady hresp req
  have hcached := (h₂.account p.tenant).cached
  refine ⟨_, _, by rw [onRequest, hupd, Option.map_some], ⟨hcons, hnot, ?_, ?_⟩, rfl⟩
  · simp only [respond, send, setInfo, htid, hcached, hsent]
    rfl
  · simp only [respond, send, setInfo, htid, hcached, hstream]
    rfl

/-- A request for a batch that has a block. -/
theorem onRequest_cached (h : Consistent c s) (hp : p.node < c p.tenant)
    (htid : req.tenantId = p.tenant) (hnum : req.tenantNumNodes = c p.tenant)
    (hbatch : req.batchNum = (s.blocks p.tenant).length % 2 ^ 32)
    (hlen : (s.sent p).length + 2 = 2 * (s.blocks p.tenant).length) (now : ℕ) :
    ∃ s₁ s', s.onRequest p req now = some s' ∧ Answered c p s s₁ s' ∧ s₁.blocks = s.blocks := by
  have hinfo := tenantInfo_register_self (s := s) htid hnum
  have hupd : (s.register p req).updateCached req now = some (s.register p req) := by
    unfold updateCached
    rw [htid, hinfo, if_neg]
    simp [(h.account p.tenant).cached, hbatch]
  have hmem : p ∈ ((s.register p req).tenantInfo p.tenant).sockFds := by
    rw [hinfo]
    exact List.mem_insert_self
  have hreg := consistent_register h hp htid hnum
  obtain ⟨s₁, s', heq, hans, hb⟩ := answered_of_updateCached hupd hreg hp htid rfl rfl hmem hlen
  exact ⟨s₁, s', heq, hans, hb⟩

/-- The first request for a batch. -/
theorem onRequest_new (h : Consistent c s) (hp : p.node < c p.tenant)
    (ht : p.tenant ≠ noTenant ∧ p.tenant < nMaxTenants)
    (htid : req.tenantId = p.tenant) (hnum : req.tenantNumNodes = c p.tenant)
    (hbatch : req.batchNum = ((s.blocks p.tenant).length + 1) % 2 ^ 32)
    (hfree : req.blkToFree = (s.blocks p.tenant).getLast?.getD noBlock)
    (hlen : (s.sent p).length = 2 * (s.blocks p.tenant).length) (now : ℕ) :
    ∃ s₁ s' b, s.onRequest p req now = some s' ∧ Answered c p s s₁ s' ∧
      s₁.blocks = Function.update s.blocks p.tenant (s.blocks p.tenant ++ [b]) := by
  have hinfo := tenantInfo_register_self (s := s) htid hnum
  have hrounds : s.rounds p.tenant = (s.blocks p.tenant).length := by
    have := (h.account p.tenant).half_length p.node hp
    change (s.sent p).length / 2 = _ at this
    omega
  obtain ⟨b, handle, hupd, h₂⟩ := consistent_updateCached (consistent_register h hp htid hnum) htid
    (by rw [hinfo]) ht hbatch hfree hrounds now
  have hblocks := blocks_renewed (s.register p req) p.tenant b req.batchNum handle
  have hmem : p ∈ (((s.register p req).renewed p.tenant b req.batchNum handle).tenantInfo
      p.tenant).sockFds := by
    simp only [renewed, Function.update_self, hinfo]
    exact List.mem_insert_self
  have hlen' : (s.sent p).length + 2 =
      2 * (((s.register p req).renewed p.tenant b req.batchNum handle).blocks p.tenant).length := by
    rw [hblocks, Function.update_self, List.length_append, List.length_singleton, hlen]
    rfl
  obtain ⟨s₁, s', heq, hans, hb⟩ := answered_of_updateCached hupd h₂ hp htid rfl rfl hmem hlen'
  exact ⟨s₁, s', b, heq, hans, hb.trans hblocks⟩

end SchedServer

end P4db
