import P4db.Algorithm.Transition
import P4db.Ee.SchedIntf
import P4db.Switch.Equiv.SchedServer

/-!
## The protocol of the scheduler

`Stands` lists where a node can stand in a batch: its phase, how many messages were sent to it, what
of them it has not read, and its request.  `NetInv` puts every node at one of these places, and ties
the batches of the nodes of a tenant together by the barrier.

* `netInv_step`: every step keeps `NetInv`.
* `block_protocol`: what the nodes and the server do in every run.
* `ready_before_receipt`: a node may be told that it is ready before it has received the response.
-/

namespace P4db.SchedNet

/-- Where a node is in its batch `k`, for which it sends the request `req` and gets the block
`blk`. -/
inductive Stands (req : AllocReq) (blk k : ℕ) : SchedPhase → ℕ → List ℕ → List AllocReq → Prop
  | request : Stands req blk k .request (2 * k) [] []
  | asked : Stands req blk k .waitResp (2 * k) [] [req]
  | answered : Stands req blk k .waitResp (2 * k + 1) [(1 + k) % 2 ^ 32, blk] []
  | answeredTold (w : ℕ) : Stands req blk k .waitResp (2 * k + 2) [(1 + k) % 2 ^ 32, blk, w] []
  | received : Stands req blk k .waitReady (2 * k + 1) [] []
  | receivedTold (w : ℕ) : Stands req blk k .waitReady (2 * k + 2) [w] []
  | running : Stands req blk k .running (2 * k + 2) [] []
  | barrier : Stands req blk k .barrier (2 * k + 2) [] []

namespace Stands

variable {req : AllocReq} {blk k l : ℕ} {ph : SchedPhase} {ws : List ℕ} {reqs : List AllocReq}

/-- The block does not matter before the node is answered. -/
theorem change (h : Stands req blk k ph l ws reqs) {blk' : ℕ} (hblk : 2 * k < l → blk' = blk) :
    Stands req blk' k ph l ws reqs := by
  cases h with
  | request => exact .request
  | asked => exact .asked
  | answered => rw [hblk (by omega)]; exact .answered
  | answeredTold w => rw [hblk (by omega)]; exact .answeredTold w
  | received => exact .received
  | receivedTold w => exact .receivedTold w
  | running => exact .running
  | barrier => exact .barrier

/-- A ready message comes after a response. -/
theorem tell (h : Stands req blk k ph l ws reqs) (hodd : l % 2 = 1) (w : ℕ) :
    Stands req blk k ph (l + 1) (ws ++ [w]) reqs := by
  cases h with
  | answered => exact .answeredTold w
  | received => exact .receivedTold w
  | _ => omega

theorem ask (h : Stands req blk k .request l ws reqs) :
    Stands req blk k .waitResp l ws (reqs ++ [req]) := by
  cases h
  exact .asked

/-- A node that reads a response gets one for its batch. -/
theorem recv {batchNum allocedBlkId : ℕ}
    (h : Stands req blk k .waitResp l (batchNum :: allocedBlkId :: ws) reqs) (req' : AllocReq) :
    batchNum = (1 + k) % 2 ^ 32 ∧ allocedBlkId = blk ∧ 2 * k < l ∧
      Stands req' blk k .waitReady l ws reqs := by
  cases h with
  | answered => exact ⟨rfl, rfl, by omega, .received⟩
  | answeredTold w => exact ⟨rfl, rfl, by omega, .receivedTold w⟩

theorem recvReady {w : ℕ} (h : Stands req blk k .waitReady l (w :: ws) reqs) :
    Stands req blk k .running l ws reqs := by
  cases h
  exact .running

theorem finish (h : Stands req blk k .running l ws reqs) : Stands req blk k .barrier l ws reqs := by
  cases h
  exact .barrier

theorem pass (h : Stands req blk k .barrier l ws reqs) (req' : AllocReq) (blk' : ℕ) :
    Stands req' blk' (k + 1) .request l ws reqs := by
  cases h
  exact .request

/-- A request that the server has not received is that of the batch, and the node waits for it. -/
theorem of_inbox (h : Stands req blk k ph l ws reqs) (hne : reqs ≠ []) :
    ph = .waitResp ∧ l = 2 * k ∧ ws = [] ∧ reqs = [req] := by
  cases h with
  | asked => exact ⟨rfl, rfl, rfl, rfl⟩
  | _ => exact absurd rfl hne

end Stands

end P4db.SchedNet

namespace P4db

/-- The number of responses that a node has received. -/
def SchedClient.received (cl : SchedClient) : ℕ :=
  match cl.phase with
  | .request | .waitResp => cl.batchNum
  | .waitReady | .running | .barrier => cl.batchNum + 1

namespace SchedNet

theorem Stands.received_le {req : AllocReq} {blk l : ℕ} {ws : List ℕ} {reqs : List AllocReq}
    {cl : SchedClient} (h : Stands req blk cl.batchNum cl.phase l ws reqs) :
    cl.received ≤ (l + 1) / 2 := by
  unfold SchedClient.received
  generalize cl.phase = ph at h
  cases h <;> dsimp only <;> omega

/-- The invariant of one node. -/
structure PeerInv (c : Tenancy) (s : SchedNet) (p : Peer) : Prop where
  stands : Stands ((s.client p).req c p.tenant)
    ((s.server.blocks p.tenant).getD (s.client p).batchNum 0)
    (s.client p).batchNum (s.client p).phase
    (s.server.sent p).length (s.server.stream p) (s.inbox p)
  got : (s.client p).got = (s.server.blocks p.tenant).take (s.client p).received
  blockNum : (s.client p).blockNum = (s.client p).got.getLast?.getD noBlock

/-- The invariant of the nodes and the server. -/
structure NetInv (c : Tenancy) (s : SchedNet) : Prop where
  consistent : SchedServer.Consistent c.numNodes s.server
  peer : ∀ p, c.IsPeer p → PeerInv c s p
  barrier : ∀ p q, c.IsPeer p → c.IsPeer q → q.tenant = p.tenant →
    (s.client p).batchNum ≤ (s.client q).reached
  blocks_le : ∀ p, c.IsPeer p → (s.server.blocks p.tenant).length ≤ (s.client p).reached + 1
  newest : ∀ t, s.server.blocks t ≠ [] → ∃ p, c.IsPeer p ∧ p.tenant = t ∧
    ((s.server.sent p).length + 1) / 2 = (s.server.blocks t).length

variable {c : Tenancy} {s s' : SchedNet} {p q : Peer}

theorem netInv_init (c : Tenancy) : NetInv c init where
  consistent := SchedServer.consistent_init c.numNodes
  peer _ _ := ⟨.request, rfl, rfl⟩
  barrier _ _ _ _ _ := Nat.zero_le _
  blocks_le _ _ := Nat.zero_le _
  newest _ h := absurd rfl h

/-! ### Steps of the nodes -/

theorem PeerInv.congr (h : PeerInv c s p) (hclient : s'.client p = s.client p)
    (hblocks : s'.server.blocks p.tenant = s.server.blocks p.tenant)
    (hsent : s'.server.sent p = s.server.sent p) (hstream : s'.server.stream p = s.server.stream p)
    (hinbox : s'.inbox p = s.inbox p) : PeerInv c s' p := by
  constructor
  · rw [hclient, hblocks, hsent, hstream, hinbox]
    exact h.stands
  · rw [hclient, hblocks]
    exact h.got
  · rw [hclient]
    exact h.blockNum

/-- A node `p` changes its own state, its socket and its requests. -/
def moved (s : SchedNet) (p : Peer) (cl : SchedClient) (ws : List ℕ) (reqs : List AllocReq) :
    SchedNet where
  server := { s.server with stream := Function.update s.server.stream p ws }
  client := Function.update s.client p cl
  inbox := Function.update s.inbox p reqs

theorem netInv_moved (h : NetInv c s) (hp : c.IsPeer p) {cl : SchedClient} {ws : List ℕ}
    {reqs : List AllocReq}
    (hst : Stands (cl.req c p.tenant) ((s.server.blocks p.tenant).getD cl.batchNum 0)
      cl.batchNum cl.phase
      (s.server.sent p).length ws reqs)
    (hgot : cl.got = (s.server.blocks p.tenant).take cl.received)
    (hblock : cl.blockNum = cl.got.getLast?.getD noBlock)
    (hreached : (s.client p).reached ≤ cl.reached)
    (hbatch : ∀ q, c.IsPeer q → q.tenant = p.tenant → cl.batchNum ≤ (s.client q).reached) :
    NetInv c (s.moved p cl ws reqs) := by
  have hself : (s.moved p cl ws reqs).client p = cl := Function.update_self ..
  have hclient : ∀ q ≠ p, (s.moved p cl ws reqs).client q = s.client q :=
    fun q hq => Function.update_of_ne hq ..
  have hmono : ∀ q, (s.client q).reached ≤ ((s.moved p cl ws reqs).client q).reached := by
    intro q
    rcases eq_or_ne q p with rfl | hq
    · rw [hself]
      exact hreached
    · rw [hclient q hq]
  constructor
  · exact { h.consistent with }
  · intro q hq
    rcases eq_or_ne q p with rfl | hqp
    · constructor
      · simp only [moved, Function.update_self]
        exact hst
      · rw [hself]
        exact hgot
      · rw [hself]
        exact hblock
    · exact (h.peer q hq).congr (hclient q hqp) rfl rfl (Function.update_of_ne hqp ..)
        (Function.update_of_ne hqp ..)
  · intro q r hq hr ht
    refine le_trans ?_ (hmono r)
    rcases eq_or_ne q p with rfl | hqp
    · rw [hself]
      exact hbatch r hr ht
    · rw [hclient q hqp]
      exact h.barrier q r hq hr ht
  · intro q hq
    exact (h.blocks_le q hq).trans (Nat.succ_le_succ (hmono q))
  · exact h.newest

theorem netInv_updateAlloc (h : NetInv c s) (hp : c.IsPeer p)
    (hstep : s.updateAlloc c p = some s') : NetInv c s' := by
  simp only [updateAlloc, Option.ite_none_right_eq_some, Option.some.injEq] at hstep
  obtain ⟨hphase, hstep⟩ := hstep
  obtain ⟨hst, hgot, hblock⟩ := h.peer p hp
  rw [hphase] at hst
  have hmoved : s' = s.moved p { s.client p with phase := .waitResp } (s.server.stream p)
      (s.inbox p ++ [(s.client p).req c p.tenant]) := by
    rw [← hstep, moved, Function.update_eq_self]
    rfl
  rw [hmoved]
  apply netInv_moved h hp hst.ask
  · simpa [SchedClient.received, hphase] using hgot
  · exact hblock
  · simp [SchedClient.reached, hphase]
  · exact fun q hq => h.barrier p q hp hq

theorem netInv_recvResp (h : NetInv c s) (hp : c.IsPeer p) (hstep : s.recvResp c p = some s') :
    NetInv c s' := by
  simp only [recvResp, Option.ite_none_right_eq_some] at hstep
  obtain ⟨hphase, hstep⟩ := hstep
  obtain ⟨hst, hgot, hblock⟩ := h.peer p hp
  rw [hphase] at hst
  split at hstep
  · next batchNum allocedBlkId ws hstream =>
    simp only [Option.ite_none_right_eq_some, Option.some.injEq] at hstep
    obtain ⟨-, hstep⟩ := hstep
    rw [hstream] at hst
    have hmoved : s' = s.moved p { s.client p with
        phase := .waitReady, blockNum := allocedBlkId, got :=
          (s.client p).got ++ [allocedBlkId] } ws
        (s.inbox p) := by
      rw [← hstep, moved, Function.update_eq_self]
      rfl
    rw [hmoved]
    obtain ⟨-, hblk, hlt, hst⟩ := hst.recv (SchedClient.req { s.client p with
      phase := .waitReady, blockNum := allocedBlkId, got :=
        (s.client p).got ++ [allocedBlkId] } c p.tenant)
    have hk : (s.client p).batchNum < (s.server.blocks p.tenant).length := by
      have hle := (h.consistent.account p.tenant).length_le p.node hp.2
      change ((s.server.sent p).length + 1) / 2 ≤ _ at hle
      omega
    apply netInv_moved h hp hst
    · simp only [SchedClient.received, hphase] at hgot ⊢
      rw [hgot, hblk, List.take_add_one, List.getD_eq_getElem?_getD, List.getElem?_eq_getElem hk]
      rfl
    · simp
    · simp [SchedClient.reached, hphase]
    · exact fun q hq => h.barrier p q hp hq
  · exact absurd hstep nofun

theorem netInv_waitSchedReady (h : NetInv c s) (hp : c.IsPeer p)
    (hstep : s.waitSchedReady p = some s') : NetInv c s' := by
  simp only [waitSchedReady, Option.ite_none_right_eq_some] at hstep
  obtain ⟨hphase, hstep⟩ := hstep
  obtain ⟨hst, hgot, hblock⟩ := h.peer p hp
  rw [hphase] at hst
  split at hstep
  · next w ws hstream =>
    rw [Option.some.injEq] at hstep
    rw [hstream] at hst
    have hmoved : s' = s.moved p { s.client p with phase := .running } ws (s.inbox p) := by
      rw [← hstep, moved, Function.update_eq_self]
      rfl
    rw [hmoved]
    apply netInv_moved h hp hst.recvReady
    · simpa [SchedClient.received, hphase] using hgot
    · exact hblock
    · simp [SchedClient.reached, hphase]
    · exact fun q hq => h.barrier p q hp hq
  · exact absurd hstep nofun

theorem netInv_finish (h : NetInv c s) (hp : c.IsPeer p) (hstep : s.finish p = some s') :
    NetInv c s' := by
  simp only [finish, Option.ite_none_right_eq_some, Option.some.injEq] at hstep
  obtain ⟨hphase, hstep⟩ := hstep
  obtain ⟨hst, hgot, hblock⟩ := h.peer p hp
  rw [hphase] at hst
  have hmoved : s' = s.moved p { s.client p with phase := .barrier } (s.server.stream p)
      (s.inbox p) := by
    rw [← hstep, moved, Function.update_eq_self, Function.update_eq_self]
    rfl
  rw [hmoved]
  apply netInv_moved h hp hst.finish
  · simpa [SchedClient.received, hphase] using hgot
  · exact hblock
  · simp [SchedClient.reached, hphase]
  · exact fun q hq => h.barrier p q hp hq

theorem netInv_pass (h : NetInv c s) (hp : c.IsPeer p) (hstep : s.pass c p = some s') :
    NetInv c s' := by
  simp only [pass, Option.ite_none_right_eq_some, Option.some.injEq] at hstep
  obtain ⟨⟨hphase, hall⟩, hstep⟩ := hstep
  obtain ⟨hst, hgot, hblock⟩ := h.peer p hp
  rw [hphase] at hst
  have hmoved : s' = s.moved p
      { s.client p with phase := .request, batchNum := (s.client p).batchNum + 1 }
      (s.server.stream p) (s.inbox p) := by
    rw [← hstep, moved, Function.update_eq_self, Function.update_eq_self]
    rfl
  rw [hmoved]
  apply netInv_moved h hp (hst.pass _ _)
  · simpa [SchedClient.received, hphase] using hgot
  · exact hblock
  · simp [SchedClient.reached, hphase]
  · rintro ⟨t, n⟩ hq rfl
    exact hall n hq.2

/-! ### Steps of the server -/

theorem peerInv_asked (h : NetInv c s) (hp : c.IsPeer p) (hne : s.inbox p ≠ []) :
    (s.client p).phase = .waitResp ∧ (s.server.sent p).length = 2 * (s.client p).batchNum ∧
      s.server.stream p = [] ∧ s.inbox p = [(s.client p).req c p.tenant] :=
  (h.peer p hp).stands.of_inbox hne

/-- The newest batch of a tenant is that of a node whose request was not received, or the one
before. -/
theorem blocks_of_asked (h : NetInv c s) (hp : c.IsPeer p) (hne : s.inbox p ≠ []) :
    (s.server.blocks p.tenant).length = (s.client p).batchNum ∨
      (s.server.blocks p.tenant).length = (s.client p).batchNum + 1 := by
  obtain ⟨hphase, hlen, -⟩ := peerInv_asked h hp hne
  have hle := (h.consistent.account p.tenant).length_le p.node hp.2
  change ((s.server.sent p).length + 1) / 2 ≤ _ at hle
  have hge := h.blocks_le p hp
  simp only [SchedClient.reached, hphase] at hge
  simp at hge
  omega

/-- The server answers a request of a tenant for which it has room. -/
theorem onRequest_answered (h : NetInv c s) (hp : c.IsPeer p) (hne : s.inbox p ≠ [])
    (ht : p.tenant < nMaxTenants) (now : ℕ) : ∃ s₁ server l,
      s.server.onRequest p ((s.client p).req c p.tenant) now = some server ∧
      SchedServer.Answered c.numNodes p s.server s₁ server ∧
      s₁.blocks = Function.update s.server.blocks p.tenant (s.server.blocks p.tenant ++ l) ∧
      (s₁.blocks p.tenant).length = (s.client p).batchNum + 1 := by
  obtain ⟨hphase, hlen, -⟩ := peerInv_asked h hp hne
  rcases blocks_of_asked h hp hne with hk | hk
  · have hfree : ((s.client p).req c p.tenant).blkToFree =
        (s.server.blocks p.tenant).getLast?.getD noBlock := by
      have hgot := (h.peer p hp).got
      simp only [SchedClient.received, hphase, ← hk, List.take_length] at hgot
      rw [← hgot]
      exact (h.peer p hp).blockNum
    have hbatch : ((s.client p).req c p.tenant).batchNum =
        ((s.server.blocks p.tenant).length + 1) % 2 ^ 32 := by
      rw [hk, add_comm]
      rfl
    obtain ⟨s₁, server, b, heq, hans, hblocks⟩ :=
      SchedServer.onRequest_new h.consistent hp.2 ⟨hp.1, ht⟩
      rfl rfl hbatch hfree (by rw [hlen, hk]) now
    refine ⟨s₁, server, [b], heq, hans, hblocks, ?_⟩
    rw [hblocks, Function.update_self, List.length_append, List.length_singleton, hk]
  · have hbatch : ((s.client p).req c p.tenant).batchNum =
        (s.server.blocks p.tenant).length % 2 ^ 32 := by
      rw [hk, add_comm]
      rfl
    have htid : ((s.client p).req c p.tenant).tenantId = p.tenant := rfl
    obtain ⟨s₁, server, heq, hans, hblocks⟩ :=
      SchedServer.onRequest_cached h.consistent hp.2 htid rfl hbatch (by rw [hlen, hk]; rfl) now
    refine ⟨s₁, server, [], heq, hans, ?_, ?_⟩
    · rw [hblocks, List.append_nil, Function.update_eq_self]
    · rw [hblocks, hk]

/-- More blocks do not change where a node stands. -/
theorem PeerInv.extend (h : PeerInv c s q) {server : SchedServer} {inbox : Peer → List AllocReq}
    {l : List ℕ} (hblocks : server.blocks q.tenant = s.server.blocks q.tenant ++ l)
    (hsent : server.sent q = s.server.sent q) (hstream : server.stream q = s.server.stream q)
    (hinbox : inbox q = s.inbox q)
    (hle : ((s.server.sent q).length + 1) / 2 ≤ (s.server.blocks q.tenant).length) :
    PeerInv c ⟨server, s.client, inbox⟩ q := by
  constructor
  · dsimp only
    rw [hsent, hstream, hinbox]
    apply h.stands.change
    intro hlt
    have hk : (s.client q).batchNum < (s.server.blocks q.tenant).length := by omega
    simp only [hblocks, List.getD_eq_getElem?_getD, List.getElem?_append_left hk]
  · have hreceived := h.stands.received_le
    dsimp only
    rw [hblocks, List.take_append_of_le_length (by omega)]
    exact h.got
  · exact h.blockNum

theorem PeerInv.notified (h : PeerInv c s q) {server : SchedServer}
    (hnot : SchedServer.Notified c.numNodes s.server server) (hq : c.IsPeer q) :
    PeerInv c { s with server := server } q := by
  have hblocks := hnot.blocks
  constructor
  · dsimp only
    rw [hblocks]
    rcases hnot.socket q hq.2 with ⟨hsent, hstream⟩ | ⟨w, hsent, hstream, hodd, -⟩
    · rw [hsent, hstream]
      exact h.stands
    · rw [hsent, hstream, List.length_append, List.length_singleton]
      exact h.stands.tell hodd w
  · dsimp only
    rw [hblocks]
    exact h.got
  · exact h.blockNum

/-- The node that asked has its answer. -/
theorem peerInv_answered (h : NetInv c s) (hp : c.IsPeer p) (hne : s.inbox p ≠ [])
    {s₁ server : SchedServer} {l : List ℕ}
    (hans : SchedServer.Answered c.numNodes p s.server s₁ server)
    (hblocks : s₁.blocks = Function.update s.server.blocks p.tenant (s.server.blocks p.tenant ++ l))
    (hlen₁ : (s₁.blocks p.tenant).length = (s.client p).batchNum + 1) :
    PeerInv c ⟨s₁, s.client, Function.update s.inbox p []⟩ p := by
  obtain ⟨hphase, hlen, hstream, -⟩ := peerInv_asked h hp hne
  obtain ⟨-, hgot, hblock⟩ := h.peer p hp
  have hlast : (s₁.blocks p.tenant).getLast?.getD 0 =
      (s₁.blocks p.tenant).getD (s.client p).batchNum 0 := by
    rw [List.getLast?_eq_getElem?, hlen₁, List.getD_eq_getElem?_getD]
    rfl
  have hword : ((s.client p).batchNum + 1) % 2 ^ 32 = (1 + (s.client p).batchNum) % 2 ^ 32 := by
    rw [add_comm]
  constructor
  · dsimp only
    rw [hans.sent, hans.stream, Function.update_self, Function.update_self,
      Function.update_self, hstream, List.length_append, List.length_singleton, hlen, hphase, hlast,
      hlen₁, hword]
    exact .answered
  · dsimp only
    have hle : (s.client p).received ≤ (s.server.blocks p.tenant).length := by
      rw [SchedClient.received, hphase]
      rcases blocks_of_asked h hp hne with hk | hk <;> dsimp only <;> omega
    rw [hblocks, Function.update_self, List.take_append_of_le_length hle]
    exact hgot
  · exact hblock

theorem netInv_answered (h : NetInv c s) (hp : c.IsPeer p) (hne : s.inbox p ≠ [])
    {s₁ server : SchedServer} {l : List ℕ}
    (hans : SchedServer.Answered c.numNodes p s.server s₁ server)
    (hblocks : s₁.blocks = Function.update s.server.blocks p.tenant (s.server.blocks p.tenant ++ l))
    (hlen₁ : (s₁.blocks p.tenant).length = (s.client p).batchNum + 1) :
    NetInv c ⟨server, s.client, Function.update s.inbox p []⟩ := by
  have hblocks' := hans.notified.blocks
  have hpeer : ∀ q, c.IsPeer q → PeerInv c ⟨s₁, s.client, Function.update s.inbox p []⟩ q := by
    intro q hq
    rcases eq_or_ne q p with rfl | hqp
    · exact peerInv_answered h hp hne hans hblocks hlen₁
    · have hmore : ∃ l, s₁.blocks q.tenant = s.server.blocks q.tenant ++ l := by
        rw [hblocks]
        rcases eq_or_ne q.tenant p.tenant with ht | ht
        · exact ⟨l, by rw [ht, Function.update_self]⟩
        · exact ⟨[], by rw [Function.update_of_ne ht, List.append_nil]⟩
      obtain ⟨l', hl'⟩ := hmore
      refine (h.peer q hq).extend hl' ?_ ?_ (Function.update_of_ne hqp ..)
        ((h.consistent.account q.tenant).length_le q.node hq.2)
      · rw [hans.sent, Function.update_of_ne hqp]
      · rw [hans.stream, Function.update_of_ne hqp]
  -- a ready message does not change how many responses a node has got
  have hresp : ∀ q, c.IsPeer q → ((server.sent q).length + 1) / 2 =
      ((s₁.sent q).length + 1) / 2 := by
    intro q hq
    rcases hans.notified.socket q hq.2 with ⟨hsent, -⟩ | ⟨w, hsent, -, hodd, -⟩
    · rw [hsent]
    · rw [hsent, List.length_append, List.length_singleton]
      omega
  constructor
  · exact hans.consistent
  · exact fun q hq => (hpeer q hq).notified hans.notified hq
  · exact h.barrier
  · intro q hq
    dsimp only
    rw [hblocks']
    rcases eq_or_ne q.tenant p.tenant with ht | ht
    · rw [ht, hlen₁]
      exact Nat.succ_le_succ (h.barrier p q hp hq ht)
    · rw [hblocks, Function.update_of_ne ht]
      exact h.blocks_le q hq
  · intro t hnonempty
    dsimp only at hnonempty ⊢
    rw [hblocks'] at hnonempty ⊢
    rcases eq_or_ne t p.tenant with rfl | ht
    · refine ⟨p, hp, rfl, ?_⟩
      rw [hresp p hp, hlen₁, hans.sent, Function.update_self, List.length_append,
        List.length_singleton, (peerInv_asked h hp hne).2.1]
      omega
    · rw [hblocks, Function.update_of_ne ht] at hnonempty ⊢
      obtain ⟨q, hq, rfl, hlen⟩ := h.newest t hnonempty
      have hqp : q ≠ p := fun heq => ht (congrArg Peer.tenant heq)
      refine ⟨q, hq, rfl, ?_⟩
      rw [hresp q hq, hans.sent, Function.update_of_ne hqp]
      exact hlen

theorem lt_nMaxTenants_of_onRequest (h : NetInv c s) (hp : c.IsPeer p) (hne : s.inbox p ≠ [])
    {now : ℕ} {server : SchedServer}
    (heq : s.server.onRequest p ((s.client p).req c p.tenant) now = some server) :
    p.tenant < nMaxTenants := by
  by_contra hge
  have hnil : s.server.blocks p.tenant = [] := by
    by_contra hnonempty
    have hlast := List.getLast?_eq_some_getLast hnonempty
    exact hge (h.consistent.queued.valid hlast).2.1
  have hk : (s.client p).batchNum = 0 := by
    have := blocks_of_asked h hp hne
    rw [hnil, List.length_nil] at this
    omega
  rw [SchedServer.onRequest, Option.map_eq_some_iff] at heq
  obtain ⟨s₂, hupd, -⟩ := heq
  refine hge (SchedServer.lt_nMaxTenants_of_updateCached ?_ hupd)
  have hcached := (h.consistent.account p.tenant).cached
  simp [SchedServer.register, SchedServer.setInfo, SchedClient.req, hcached, hnil, hk]

/-- What a step of the server does. -/
theorem onRequest_cases (h : NetInv c s) (hp : c.IsPeer p) {now : ℕ}
    (hstep : s.onRequest p now = some s') :
    s.inbox p ≠ [] ∧ ∃ s₁ server l, s' = ⟨server, s.client, Function.update s.inbox p []⟩ ∧
      SchedServer.Answered c.numNodes p s.server s₁ server ∧
      s₁.blocks = Function.update s.server.blocks p.tenant (s.server.blocks p.tenant ++ l) ∧
      (s₁.blocks p.tenant).length = (s.client p).batchNum + 1 := by
  have hne : s.inbox p ≠ [] := by
    intro hnil
    simp [onRequest, hnil] at hstep
  obtain ⟨-, -, -, hinbox⟩ := peerInv_asked h hp hne
  simp only [onRequest, hinbox, Option.map_eq_some_iff] at hstep
  obtain ⟨server, hserver, rfl⟩ := hstep
  have ht := lt_nMaxTenants_of_onRequest h hp hne hserver
  obtain ⟨s₁, server', l, heq, hans, hblocks, hlen₁⟩ := onRequest_answered h hp hne ht now
  rw [hserver, Option.some.injEq] at heq
  subst heq
  exact ⟨hne, s₁, server, l, rfl, hans, hblocks, hlen₁⟩

theorem netInv_step (h : NetInv c s) (a : Action) (hstep : s.step c a = some s') : NetInv c s' := by
  simp only [step, Option.ite_none_right_eq_some] at hstep
  obtain ⟨hp, hstep⟩ := hstep
  cases a with
  | updateAlloc p => exact netInv_updateAlloc h hp hstep
  | onRequest p now =>
    obtain ⟨hne, s₁, server, l, rfl, hans, hblocks, hlen₁⟩ := onRequest_cases h hp hstep
    exact netInv_answered h hp hne hans hblocks hlen₁
  | recvResp p => exact netInv_recvResp h hp hstep
  | waitSchedReady p => exact netInv_waitSchedReady h hp hstep
  | finish p => exact netInv_finish h hp hstep
  | pass p => exact netInv_pass h hp hstep

/-! ### Ready messages -/

/-- Only the server sends messages. -/
theorem sent_of_step {a : Action} (hstep : s.step c a = some s') :
    s'.server.sent = s.server.sent ∨ ∃ p now, a = .onRequest p now := by
  simp only [step, Option.ite_none_right_eq_some] at hstep
  obtain ⟨-, hstep⟩ := hstep
  cases a with
  | onRequest p now => exact .inr ⟨p, now, rfl⟩
  | updateAlloc p =>
    simp only [updateAlloc, Option.ite_none_right_eq_some, Option.some.injEq] at hstep
    obtain ⟨-, rfl⟩ := hstep
    exact .inl rfl
  | recvResp p =>
    simp only [recvResp, Option.ite_none_right_eq_some] at hstep
    obtain ⟨-, hstep⟩ := hstep
    split at hstep
    · simp only [Option.ite_none_right_eq_some, Option.some.injEq] at hstep
      obtain ⟨-, rfl⟩ := hstep
      exact .inl rfl
    · exact absurd hstep nofun
  | waitSchedReady p =>
    simp only [waitSchedReady, Option.ite_none_right_eq_some] at hstep
    obtain ⟨-, hstep⟩ := hstep
    split at hstep
    · rw [Option.some.injEq] at hstep
      subst hstep
      exact .inl rfl
    · exact absurd hstep nofun
  | finish p =>
    simp only [finish, Option.ite_none_right_eq_some, Option.some.injEq] at hstep
    obtain ⟨-, rfl⟩ := hstep
    exact .inl rfl
  | pass p =>
    simp only [pass, Option.ite_none_right_eq_some, Option.some.injEq] at hstep
    obtain ⟨-, rfl⟩ := hstep
    exact .inl rfl

/-- A step sends a ready message to node `p`. -/
def SendsReady (s s' : SchedNet) (p : Peer) : Prop :=
  ∃ new w, s'.server.sent p = s.server.sent p ++ new ∧ .ready w ∈ new

/-- A tenant that is told in a step has been told for its newest batch. -/
theorem rounds_of_sendsReady (h : NetInv c s) {a : Action} (hstep : s.step c a = some s')
    (hp : c.IsPeer p) (hready : SendsReady s s' p) :
    s'.server.blocks p.tenant ≠ [] ∧ s'.server.rounds p.tenant =
      (s'.server.blocks p.tenant).length := by
  obtain ⟨new, w, hsent, hmem⟩ := hready
  rcases sent_of_step hstep with heq | ⟨r, now, rfl⟩
  · rw [heq, List.self_eq_append_right] at hsent
    simp [hsent] at hmem
  · simp only [step, Option.ite_none_right_eq_some] at hstep
    obtain ⟨hr, hstep⟩ := hstep
    change c.IsPeer r at hr
    obtain ⟨-, s₁, server, l, rfl, hans, hblocks, hlen₁⟩ := onRequest_cases h hr hstep
    dsimp only at hsent ⊢
    rw [hans.notified.blocks]
    rcases hans.notified.socket p hp.2 with ⟨hsame, -⟩ | ⟨w', htold, -, hodd, hrounds⟩
    · -- it may have got a response, but no ready message
      rw [hsame, hans.sent] at hsent
      rcases eq_or_ne p r with rfl | hpr
      · rw [Function.update_self, List.append_cancel_left_eq] at hsent
        simp [← hsent] at hmem
      · rw [Function.update_of_ne hpr, List.self_eq_append_right] at hsent
        simp [hsent] at hmem
    · refine ⟨?_, hrounds⟩
      have hle := (hans.consistent.account p.tenant).length_le p.node hp.2
      change ((server.sent p).length + 1) / 2 ≤ _ at hle
      rw [htold, List.length_append, hans.notified.blocks] at hle
      intro hnil
      rw [hnil] at hle
      simp only [List.length_singleton, List.length_nil] at hle
      omega

/-- When a tenant has been told for its newest batch, its nodes have got the response and then the
ready message. -/
theorem sent_of_rounds (h : SchedServer.Consistent c.numNodes s.server) (hp : c.IsPeer p)
    (hne : s.server.blocks p.tenant ≠ [])
    (hrounds : s.server.rounds p.tenant = (s.server.blocks p.tenant).length) :
    ∃ old w, s.server.sent p = old ++ [.resp ⟨(s.server.blocks p.tenant).length % 2 ^ 32,
      (s.server.blocks p.tenant).getLast?.getD 0⟩, .ready w] := by
  have hacc := h.account p.tenant
  have hhalf := hacc.half_length p.node hp.2
  have hle := hacc.length_le p.node hp.2
  have hmsgs := hacc.messages p.node hp.2
  obtain ⟨k, hk⟩ := Nat.exists_eq_succ_of_ne_zero (List.length_pos_iff.mpr hne).ne'
  have hlen : (s.server.sent ⟨p.tenant, p.node⟩).length = 2 * (k + 1) := by omega
  rw [hlen] at hmsgs
  obtain ⟨old, w, heq⟩ := SchedServer.exists_of_exchange hmsgs
  refine ⟨old, w, ?_⟩
  rw [List.getLast?_eq_getElem?, hk]
  rw [List.getD_eq_getElem?_getD] at heq
  exact heq

/-- The tenant is at the front of the queue of its block. -/
theorem front_of_rounds (h : SchedServer.Consistent c.numNodes s.server) {t : ℕ}
    (hne : s.server.blocks t ≠ []) (hrounds : s.server.rounds t = (s.server.blocks t).length) :
    (s.server.handle.blockQueue ((s.server.blocks t).getLast?.getD 0)).head? = some t := by
  have hready := h.told hne hrounds.ge
  have hlast := List.getLast?_eq_some_getLast hne
  have hfront := (h.queued.nReady_iff hlast).1.mp hready
  rwa [hlast]

/-! ### The protocol -/

/-- A node that waits for the response does not misread what is on its socket. -/
theorem recvResp_isSome (h : NetInv c s) (hp : c.IsPeer p) (hphase : (s.client p).phase = .waitResp)
    (hne : s.server.stream p ≠ []) : (s.recvResp c p).isSome := by
  have hst := (h.peer p hp).stands
  rw [hphase] at hst
  have hread : ∃ blk ws, s.server.stream p = ((s.client p).req c p.tenant).batchNum ::
      blk :: ws := by
    generalize s.server.stream p = ws, (s.server.sent p).length = l, s.inbox p = reqs at hst hne
    cases hst with
    | asked => exact absurd rfl hne
    | answered => exact ⟨_, _, rfl⟩
    | answeredTold w => exact ⟨_, _, rfl⟩
  obtain ⟨blk, ws, hstream⟩ := hread
  simp [recvResp, hphase, hstream]

theorem netInv_of_run {as : List Action} (hrun : Transition.run (step c) init as = some s) :
    NetInv c s :=
  Transition.run_invariant (fun _ a _ hs hstep => netInv_step hs a hstep) (netInv_init c) hrun

/-- **The protocol of the scheduler**, for any tenants and any order of steps.  With `blocks t` the
blocks that were allocated for `t`, one for each batch:

* the blocks that a node has received are those of the first batches;
* the calls for a tenant are one `handle_alloc` for every batch that a node was answered for, and
  before each but the first one `handle_free` of the block of the last batch;
* a socket carries the response of the first batch, a ready message, the response of the second
  batch, and so on;
* when a ready message is sent to a node, its tenant is at the front of the queue of its block, and
  all nodes of the tenant have been sent the response of its newest batch, and then one ready
  message;
* the server can handle every request of a tenant that it has room for. -/
theorem block_protocol (c : Tenancy) {as : List Action} {s : SchedNet}
    (hrun : Transition.run (step c) init as = some s) :
    (∀ p, c.IsPeer p → (s.client p).got <+: s.server.blocks p.tenant) ∧
    (∀ t, s.server.calls t = SchedServer.callsOf (s.server.blocks t) ∧
      (∀ p, c.IsPeer p → p.tenant = t →
        ((s.server.sent p).filterMap SchedMsg.resp?).length ≤ (s.server.blocks t).length) ∧
      (s.server.blocks t ≠ [] → ∃ p, c.IsPeer p ∧ p.tenant = t ∧
        ((s.server.sent p).filterMap SchedMsg.resp?).length = (s.server.blocks t).length)) ∧
    (∀ p, c.IsPeer p → (s.server.sent p).map SchedMsg.resp? =
      (List.range (s.server.sent p).length).map (SchedServer.exchange (s.server.blocks p.tenant))) ∧
    (∀ a s', s.step c a = some s' → ∀ p, c.IsPeer p → SendsReady s s' p →
      ∃ blk, (s'.server.handle.blockQueue blk).head? = some p.tenant ∧
        ∀ q, c.IsPeer q → q.tenant = p.tenant → ∃ old w, s'.server.sent q =
          old ++ [.resp ⟨(s'.server.blocks p.tenant).length % 2 ^ 32, blk⟩, .ready w]) ∧
    (∀ p now, c.IsPeer p → p.tenant < nMaxTenants → s.inbox p ≠ [] →
      (s.step c (.onRequest p now)).isSome) := by
  have h := netInv_of_run hrun
  have hlen : ∀ p, c.IsPeer p → ((s.server.sent p).filterMap SchedMsg.resp?).length =
      ((s.server.sent p).length + 1) / 2 := by
    intro p hp
    rw [← SchedServer.length_filterMap_exchange (s.server.blocks p.tenant),
      ← (h.consistent.account p.tenant).messages p.node hp.2, List.filterMap_map]
    rfl
  refine ⟨fun p hp => ?_, fun t => ⟨(h.consistent.account t).calls_eq, ?_, ?_⟩,
    fun p hp => (h.consistent.account p.tenant).messages p.node hp.2,
      fun a s' hstep p hp hready => ?_,
    fun p now hp ht hne => ?_⟩
  · rw [(h.peer p hp).got]
    exact List.take_prefix ..
  · rintro p hp rfl
    rw [hlen p hp]
    exact (h.consistent.account p.tenant).length_le p.node hp.2
  · intro hne
    obtain ⟨p, hp, rfl, hp'⟩ := h.newest t hne
    exact ⟨p, hp, rfl, (hlen p hp).trans hp'⟩
  · have h' := netInv_step h a hstep
    obtain ⟨hne, hrounds⟩ := rounds_of_sendsReady h hstep hp hready
    refine ⟨_, front_of_rounds h'.consistent hne hrounds, fun q hq ht => ?_⟩
    rw [← ht] at hne hrounds ⊢
    exact sent_of_rounds h'.consistent hq hne hrounds
  · obtain ⟨-, -, -, hinbox⟩ := peerInv_asked h hp hne
    obtain ⟨s₁, server, l, heq, -⟩ := onRequest_answered h hp hne ht now
    simp [step, Action.peer, hp, onRequest, hinbox, heq]

/-- Two tenants with two nodes each. -/
def twoTenants : Tenancy := ⟨fun t => if t = 1 ∨ t = 2 then 2 else 0⟩

/-- Both tenants ask for a block, and the first goes on to its second batch. -/
def secondBatch : List Action :=
  [.updateAlloc ⟨1, 0⟩, .updateAlloc ⟨2, 0⟩, .updateAlloc ⟨1, 1⟩, .onRequest ⟨1, 1⟩ 0,
    .onRequest ⟨2, 0⟩ 0, .onRequest ⟨1, 0⟩ 0, .recvResp ⟨1, 0⟩, .recvResp ⟨1, 1⟩,
    .waitSchedReady ⟨1, 0⟩, .waitSchedReady ⟨1, 1⟩,
    .finish ⟨1, 1⟩, .finish ⟨1, 0⟩, .pass ⟨1, 0⟩, .updateAlloc ⟨1, 0⟩, .onRequest ⟨1, 0⟩ 0]

theorem run_secondBatch : ((Transition.run (step twoTenants) init secondBatch).map fun s =>
    decide (s.server.calls 1 = [.alloc 31, .free 31, .alloc 29])) = some true := by
  decide +kernel

theorem block_protocol_secondBatch :
    ∃ s, Transition.run (step twoTenants) init secondBatch = some s ∧
    s.server.calls 1 = [.alloc 31, .free 31, .alloc 29] ∧
    (s.client ⟨1, 1⟩).got <+: s.server.blocks 1 := by
  obtain ⟨s, hrun, hs⟩ := Option.map_eq_some_iff.mp run_secondBatch
  have hprotocol := block_protocol twoTenants hrun
  exact ⟨s, hrun, of_decide_eq_true hs, hprotocol.1 ⟨1, 1⟩ (by decide)⟩

/-! ### The response and the ready message -/

/-- When a ready message is sent to a node, all nodes of its tenant have received the blocks of all
of its batches. -/
def ReadyAfterReceipt (c : Tenancy) (s s' : SchedNet) : Prop :=
  ∀ p, c.IsPeer p → SendsReady s s' p → ∀ q, c.IsPeer q → q.tenant = p.tenant →
    (s'.client q).got = s'.server.blocks q.tenant

/-- One tenant with one node. -/
def oneNode : Tenancy := ⟨fun t => if t = 1 then 1 else 0⟩

theorem run_oneNode : ((Transition.run (step oneNode) init [.updateAlloc ⟨1, 0⟩]).bind fun s =>
    (s.step oneNode (.onRequest ⟨1, 0⟩ 0)).map fun s' => decide (s.server.sent ⟨1, 0⟩ = [] ∧
      s'.server.sent ⟨1, 0⟩ = [.resp ⟨1, 31⟩, .ready 1] ∧
      (s'.client ⟨1, 0⟩).got = [] ∧ s'.server.blocks 1 = [31])) = some true := by
  decide +kernel

/-- The server sends the ready message right after the last response, before the node has received
it. -/
theorem ready_before_receipt : ∃ s s',
    Transition.run (step oneNode) init [.updateAlloc ⟨1, 0⟩] = some s ∧
    s.step oneNode (.onRequest ⟨1, 0⟩ 0) = some s' ∧ ¬ ReadyAfterReceipt oneNode s s' := by
  obtain ⟨s, hrun, hs⟩ := Option.bind_eq_some_iff.mp run_oneNode
  obtain ⟨s', hstep, hs'⟩ := Option.map_eq_some_iff.mp hs
  obtain ⟨hnil, hsent, hgot, hblocks⟩ := of_decide_eq_true hs'
  refine ⟨s, s', hrun, hstep, fun hafter => ?_⟩
  have hready : SendsReady s s' ⟨1, 0⟩ := ⟨_, 1, by rw [hnil, hsent, List.nil_append], by simp⟩
  have heq := hafter ⟨1, 0⟩ (by decide) hready ⟨1, 0⟩ (by decide) rfl
  rw [hgot, hblocks] at heq
  exact absurd heq nofun

end SchedNet

end P4db
