import Mathlib.Data.List.Nodup
import P4db.Comm.Tcp

/-!
# Framing

* `copied`: the loop that copies messages.
* `inv_recv`: one call of `recv`, from a state in which no message border was passed.
* `framing`: whatever `recv` returns, the handler gets the messages of the stream.
-/

namespace P4db.TcpCommunicator

variable {c : TcpCommunicator}

/-- The buffers are different ones. -/
structure Buffers (bufs : List ℕ) : Prop where
  length : bufs.length = nRecvBuffers
  nodup : bufs.Nodup

theorem buffers_reallocBufs (c : TcpCommunicator) : Buffers c.reallocBufs.recvBuffers where
  length := by
    unfold reallocBufs
    rw [List.length_map, List.length_range]
  nodup := by
    unfold reallocBufs
    exact List.Nodup.map (fun a b hab => Nat.add_left_cancel hab) List.nodup_range

/-- After `n` iterations the first `n` buffers have the first `n` messages. -/
theorem copied (h : Buffers c.recvBuffers) {n : ℕ} (hn : n ≤ nRecvBuffers) :
    ∃ memory, (List.range n).foldlM c.copyMsg (c.memory, []) = some (memory, c.recvBuffers.take n) ∧
      (c.recvBuffers.take n).map memory = Pieces.pieces msgSize c.buf n := by
  induction n with
  | zero => exact ⟨c.memory, rfl, rfl⟩
  | succ n ih =>
    obtain ⟨memory, hfold, hmap⟩ := ih (Nat.le_of_succ_le hn)
    have hlt : n < c.recvBuffers.length := by
      rw [h.length]
      exact hn
    have htake : c.recvBuffers.take (n + 1) = c.recvBuffers.take n ++ [c.recvBuffers[n]] :=
      List.take_succ_eq_append_getElem hlt
    -- the next buffer is none of those that were filled
    have hnew : c.recvBuffers[n] ∉ c.recvBuffers.take n := by
      have hnd := h.nodup.sublist (List.take_sublist (n + 1) c.recvBuffers)
      rw [htake] at hnd
      exact fun hin => (List.nodup_append.mp hnd).2.2 _ hin _ List.mem_cons_self rfl
    refine ⟨Function.update memory c.recvBuffers[n] (Pieces.piece msgSize c.buf n), ?_, ?_⟩
    · rw [List.range_succ, List.foldlM_append, hfold, Option.bind_eq_bind, Option.bind_some,
        List.foldlM_cons]
      unfold copyMsg
      rw [List.getElem?_eq_getElem hlt, htake]
      rfl
    · rw [htake, List.map_append, List.map_singleton, Function.update_self,
        Pieces.pieces_succ, ← hmap]
      congr 1
      apply List.map_congr_left
      intro addr haddr
      have hne : addr ≠ c.recvBuffers[n] := fun heq => hnew (heq ▸ haddr)
      rw [Function.update_of_ne hne]

/-- What holds between calls of `recv`, when `got` has been received. -/
structure Inv (got : List UInt8) (c : TcpCommunicator) : Prop where
  got : c.handled.flatten ++ c.buf = got
  handled : ∀ m ∈ c.handled, m.length = msgSize
  border : c.buf.length % msgSize = 0 → c.buf = []
  len : c.buf.length ≤ nRecvBuffers * msgSize
  buffers : Buffers c.recvBuffers

theorem inv_init (memory : ℕ → List UInt8) : Inv [] (init memory) :=
  ⟨rfl, by simp [init, reallocBufs], fun _ => rfl, Nat.zero_le _, buffers_reallocBufs _⟩

/-- There is always room for more. -/
theorem Inv.request_pos {got : List UInt8} (h : Inv got c) : 0 < c.request := by
  unfold request
  rcases Nat.lt_or_eq_of_le h.len with hlt | heq
  · omega
  · have hnil := h.border (by rw [heq]; exact Nat.mul_mod_left _ _)
    rw [hnil] at heq ⊢
    decide

/-- All messages of a full number are handed over. -/
theorem Inv.finish {got : List UInt8} (hgot : c.handled.flatten ++ c.buf = got)
    (hhandled : ∀ m ∈ c.handled, m.length = msgSize) (hborder : c.buf.length % msgSize = 0)
    (hlen : c.buf.length ≤ nRecvBuffers * msgSize) (hbuf : Buffers c.recvBuffers) :
    ∃ c', c.finish = some c' ∧ Inv got c' := by
  set n := c.buf.length / msgSize with hn
  have hmul : msgSize * n = c.buf.length := Nat.mul_div_cancel' (Nat.dvd_of_mod_eq_zero hborder)
  have hle : n ≤ nRecvBuffers := by
    rw [hn]
    exact Nat.div_le_of_le_mul (by rw [Nat.mul_comm]; exact hlen)
  obtain ⟨memory, hfold, hmap⟩ := copied hbuf hle
  refine ⟨{ reallocBufs { c with memory := memory } with
    buf := []
    handled := c.handled ++ Pieces.pieces msgSize c.buf n }, ?_, ?_⟩
  · unfold TcpCommunicator.finish
    rw [← hn, hfold, Option.bind_eq_bind, Option.bind_some, ← hmap]
  · constructor
    case got =>
      show (c.handled ++ Pieces.pieces msgSize c.buf n).flatten ++ [] = got
      rw [List.append_nil, List.flatten_append, Pieces.flatten_pieces, hmul, List.take_length]
      exact hgot
    case handled =>
      intro m hm
      rcases List.mem_append.mp hm with hm | hm
      · exact hhandled m hm
      · exact Pieces.length_of_mem_pieces (Nat.le_of_eq hmul) hm
    case border => exact fun _ => rfl
    case len => exact Nat.zero_le _
    case buffers => exact buffers_reallocBufs { c with memory := memory }

theorem inv_recv {got : List UInt8} (h : Inv got c) {r : RecvResult} (hr : r.Fits c.request) :
    (0 < c.request ∧ (c.buf ++ r.chunk).length ≤ nRecvBuffers * msgSize) ∧
      ∃ c', c.recv r = some c' ∧ Inv (got ++ r.chunk) c' := by
  have hpos := h.request_pos
  cases r with
  | error =>
    refine ⟨⟨hpos, ?_⟩, c, rfl, ?_⟩
    · show (c.buf ++ []).length ≤ _
      rw [List.append_nil]
      exact h.len
    · show Inv (got ++ []) c
      rw [List.append_nil]
      exact h
  | bytes chunk =>
    have hlen : (c.buf ++ chunk).length ≤ nRecvBuffers * msgSize := by
      have hsize := hr.2
      have hbuf := h.len
      unfold request at hsize
      rw [List.length_append]
      omega
    have hgot : c.handled.flatten ++ (c.buf ++ chunk) = got ++ chunk := by
      rw [← List.append_assoc, h.got]
    refine ⟨⟨hpos, hlen⟩, ?_⟩
    show ∃ c', c.recv (.bytes chunk) = some c' ∧ Inv (got ++ chunk) c'
    unfold recv
    dsimp only
    split_ifs with hborder
    · exact Inv.finish hgot h.handled hborder hlen h.buffers
    · -- in the middle of a message
      exact ⟨_, rfl, hgot, h.handled, fun hb => absurd hb hborder, hlen, h.buffers⟩

theorem foldl_chunks (rs : List RecvResult) (got : List UInt8) :
    rs.foldl (fun got r => got ++ r.chunk) got = got ++ rs.flatMap RecvResult.chunk := by
  induction rs generalizing got with
  | nil => exact (List.append_nil got).symm
  | cons r rs ih => rw [List.foldl_cons, ih, List.flatMap_cons, List.append_assoc]

/-- **Framing.**  Let `recv` return parts of a stream of messages in any way it can, with errors in
between.  Then the packets that the handler gets are the messages of the stream, from the first one
on, and all of them when the whole stream has arrived; `buf` never overflows, and `recv` is never
called with size 0. -/
theorem framing (msgs : List (List UInt8)) (hmsgs : ∀ m ∈ msgs, m.length = msgSize)
    (memory : ℕ → List UInt8) (rs : List RecvResult)
    (hfits : Transition.Tried recv (fun c r => r.Fits c.request) (init memory) rs)
    (hstream : rs.flatMap RecvResult.chunk <+: msgs.flatten) :
    ∃ c, Transition.run recv (init memory) rs = some c ∧ c.handled <+: msgs ∧
      c.handled.flatten ++ c.buf = rs.flatMap RecvResult.chunk ∧
      (rs.flatMap RecvResult.chunk = msgs.flatten → c.handled = msgs) ∧
      Transition.AlongRun recv (fun c r => 0 < c.request ∧
        (c.buf ++ r.chunk).length ≤ nRecvBuffers * msgSize)
        (init memory) rs := by
  have hpos : 0 < msgSize := by decide
  obtain ⟨c, hrun, hinv, halong⟩ :=
    Transition.exists_run_of_tried (I := Inv) (g := fun got r => got ++ r.chunk)
    (fun got c r h hr => inv_recv h hr) (inv_init memory) hfits
  rw [foldl_chunks, List.nil_append] at hinv
  have hpre : c.handled <+: msgs := by
    refine Pieces.isPrefix_of_flatten hpos hinv.handled hmsgs
      (List.IsPrefix.trans ⟨c.buf, hinv.got⟩ hstream)
  refine ⟨c, hrun, hpre, hinv.got, fun hall => ?_, halong⟩
  -- what is left in `buf` is a number of whole messages, so there is nothing left
  have hlen := congrArg List.length (hinv.got.trans hall)
  rw [List.length_append, Pieces.length_flatten hinv.handled, Pieces.length_flatten hmsgs] at hlen
  have hnil : c.buf = [] := by
    apply hinv.border
    have hmod := congrArg (· % msgSize) hlen
    simpa using hmod
  refine hpre.eq_of_length ?_
  rw [hnil, List.length_nil, Nat.add_zero] at hlen
  exact Nat.eq_of_mul_eq_mul_left hpos hlen

/-- Two messages, of which `recv` returns the first byte, an error, 100 bytes and the rest. -/
theorem framing_twoMessages : ∃ c, Transition.run recv (init fun _ => [])
      [.bytes [1], .error, .bytes (List.replicate 71 1 ++ List.replicate 29 2),
        .bytes (List.replicate 43 2)] = some c ∧
    c.handled = [List.replicate 72 1, List.replicate 72 2] := by
  obtain ⟨c, hrun, -, -, hall, -⟩ :=
    framing [List.replicate 72 1, List.replicate 72 2] (by decide) (fun _ => [])
    [.bytes [1], .error, .bytes (List.replicate 71 1 ++ List.replicate 29 2),
      .bytes (List.replicate 43 2)]
    (by decide +kernel) (by decide +kernel)
  exact ⟨c, hrun, hall (by decide +kernel)⟩

end P4db.TcpCommunicator
