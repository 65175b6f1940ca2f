import P4db.Ee.Equiv.SwitchOrder

/-!
# Every packet once

The threads of a node put their packets into a queue that is emptied once per batch, and the queue
is cut into windows on the way out.

* `packets_exactly_once`: all the same the hot path of a node is one queue that loses nothing.  What
  a node has sent, followed by what it has still to send, are the slots of its batches, in the order
  in which they were claimed.
-/

namespace P4db.Lockstep

open Transition TwoPhase

variable {n : Bool → UInt32} {π : Type} {c : Config} {s : State n π} {store₀ : DbKey → BitVec 32}

/-- The transactions of a node whose packets have been sent. -/
def State.packetsOf (s : State n π) (i : Bool) : List Attempt :=
  s.packets.filter fun t => t.worker.nid = i.toNat

theorem flatMap_filter_eq {α β : Type} (p : α → Prop) [DecidablePred p] (f : α → List β)
    (l : List α) :
    (l.filter fun x => p x).flatMap f = l.flatMap fun x => if p x then f x else [] := by
  induction l with
  | nil => rfl
  | cons x l ih =>
    rw [List.filter_cons, List.flatMap_cons, ← ih]
    by_cases hx : p x
    · rw [if_pos (decide_eq_true hx), if_pos hx, List.flatMap_cons]
    · rw [if_neg fun hd => hx (of_decide_eq_true hd), if_neg hx]
      rfl

/-- A node sends the packets of its own transactions. -/
theorem Switched.packetsOf_eq (h : Switched c store₀ s) (i : Bool) :
    s.packetsOf i = (s.sentBy i).flatMap fun x => x.event.txns := by
  rw [State.packetsOf, State.packets, State.sentBy, flatMap_filter_eq, List.filter_flatMap]
  refine List.flatMap_congr fun x hx => ?_
  have hnid : ∀ t ∈ x.event.txns, t.worker.nid = x.node.toNat := fun t ht =>
    ((h.order x.node).slot_of_sent h.sent hx rfl ht).1
  split_ifs with hi
  · exact List.filter_eq_self.mpr fun t ht => decide_eq_true (hi ▸ hnid t ht)
  · refine List.filter_eq_nil_iff.mpr fun t ht heq => hi (toNat_injective ?_)
    exact (hnid t ht).symm.trans (of_decide_eq_true heq)

theorem Switched.packetsOf_append_pending (h : Switched c store₀ s) (i : Bool) :
    s.packetsOf i ++ s.pending i = s.slotsBefore i (s.sys.batch i.toNat + 1) := by
  rw [h.packetsOf_eq]
  exact (h.order i).sent_append_pending h.sent

theorem Switched.nodup_packets (h : Switched c store₀ s) : s.packets.Nodup := by
  refine List.nodup_iff_count_le_one.mpr fun t => ?_
  by_cases ht : t ∈ s.packets
  · obtain ⟨x, hx, hxt⟩ := List.mem_flatMap.mp ht
    obtain ⟨hnid, -⟩ := (h.order x.node).slot_of_sent h.sent hx rfl hxt
    have hnodup : (s.packetsOf x.node).Nodup := by
      have hall := nodup_slotsBefore h.driven.good.ordered.slots x.node
        (s.sys.batch x.node.toNat + 1)
      rw [← h.packetsOf_append_pending] at hall
      exact hall.of_append_left
    calc s.packets.count t = (s.packetsOf x.node).count t := by
          rw [State.packetsOf, List.count_filter]
          exact decide_eq_true hnid
      _ ≤ 1 := List.nodup_iff_count_le_one.mp hnodup t
  · rw [List.count_eq_zero_of_not_mem ht]
    exact Nat.zero_le 1

/-- **Every packet once.**  When the threads of both nodes run with their barriers, every hot period
begins with a queue that is not empty and every operation is a write: the packets a node has sent,
and after them those it has still to send, are the slots of its batches in the order in which they
were claimed.  No packet is sent twice, only calls that have committed have one, and no call of
`my_execute` that has committed is without one. -/
theorem packets_exactly_once (c : Config) (value : ℕ → DbKey → BitVec 32)
    (mem : ℕ → ℕ → HotTxnEntry Attempt) (as : List (Action n π)) (s : State n π)
    (hreg : AlongRun (step c) Regular (State.init value mem) as)
    (hrun : run (step c) (State.init value mem) as = some s) :
    (∀ i, s.packetsOf i ++ s.pending i = s.slotsBefore i (s.sys.batch i.toNat + 1)) ∧
      s.packets.Nodup ∧ (∀ t ∈ s.packets, Committed s.sys.history t) ∧
      ∀ t m, s.sys.InBatch t m → Committed s.sys.history t →
        t ∈ s.packets ∨ ∃ i, t ∈ s.pending i := by
  have h := switched_of_run c value mem hreg hrun
  have hslots := h.driven.good.ordered.slots
  refine ⟨h.packetsOf_append_pending, h.nodup_packets, fun t ht => ?_, fun t m hm hc => ?_⟩
  · obtain ⟨x, hx, hxt⟩ := List.mem_flatMap.mp ht
    obtain ⟨-, b, k, hmem⟩ := (h.order x.node).slot_of_sent h.sent hx rfl hxt
    exact hslots.committed _ hmem
  · obtain ⟨⟨t, b, k⟩, hmem, rfl⟩ := List.mem_map.mp (hslots.has_slot t m hm hc)
    obtain ⟨i, u, hw⟩ := h.driven.worker_of_inBatch hm
    have hnid : t.worker.nid = i.toNat := by
      rw [hw]
      rfl
    have hle : b ≤ s.sys.batch i.toNat := by
      have hbelow := (hslots.below _ hmem).1
      rwa [hnid] at hbelow
    have hmem : t ∈ s.packetsOf i ++ s.pending i := by
      rw [h.packetsOf_append_pending]
      exact mem_slotsBefore.mpr ⟨hnid, b, Nat.lt_succ_of_le hle, k, hmem⟩
    rcases List.mem_append.mp hmem with hsent | hpending
    · exact .inl (List.mem_of_mem_filter hsent)
    · exact .inr ⟨i, hpending⟩

theorem packets_exactly_once_twoWrites :
    ∃ s, AlongRun (step System.twoNodes) Regular bothStart twoWrites ∧
      run (step System.twoNodes) bothStart twoWrites = some s ∧ s.packets.length = 2 ∧
      s.packets.Nodup := by
  have hrun : (run (step System.twoNodes) bothStart twoWrites).map (fun s => s.packets.length) =
      some 2 := by
    decide +kernel
  obtain ⟨s, hs, hlen⟩ := Option.map_eq_some_iff.mp hrun
  exact ⟨s, regular_twoWrites, hs, hlen,
    (packets_exactly_once System.twoNodes _ _ twoWrites s regular_twoWrites hs).2.1⟩

end P4db.Lockstep
