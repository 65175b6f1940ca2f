import Mathlib.Algebra.Order.BigOperators.Group.Finset
import Mathlib.Algebra.Order.BigOperators.Group.List
import P4db.Ee.Equiv.Effects

/-!
# Every call returns

A lock that is taken is refused at once, so that no call waits for another one.  What a thread waits
for is a message: the answer to its `TupleGetReq`, or the responses to its `TuplePutReq`s.

`toGo` counts the steps that are still to be made at most: by the threads in their calls, and by the
handlers with the messages, those included that are not sent yet.  An operation takes eight of them
if its row belongs to another node, and a call takes five more, whatever else is going on:
`steps_le_price`.

A thread that waits has a message on its way (`Attended`), so that there is always a step to make
until all calls have returned: `quiet_or_enabled`.
-/

namespace P4db

open TwoPhase Transition

variable {ph : Phase}

/-! ### The steps that are left -/

/-- The steps of a thread, and of the messages it has not sent yet, with `n` operations and `l`
entries in the log. -/
def Phase.toGo (n l : ℕ) : Phase → ℕ
  | .idle => 0
  | .acquire i => 5 + 3 * l + n + 7 * (n - i)
  | .await i => 6 + 3 * l + n + 7 * (n - (i + 1))
  | .access i => 4 + 3 * l + (n - i)
  | .alloc => 3 + 3 * l
  | .clear _ j => 2 + 3 * (l - j)
  | .waitPuts _ => 1

theorem Phase.toGo_pos (h : ph ≠ .idle) (n l : ℕ) : 0 < ph.toGo n l := by
  cases ph <;> simp [Phase.toGo] at h ⊢

def Thread.toGo (th : Thread) : ℕ := th.phase.toGo th.txn.cold.length th.log.length

/-- The steps of the handlers with a message and the response to it. -/
def MsgType.toGo : MsgType → ℕ
  | .tupleGetReq | .tuplePutReq => 2
  | .tupleGetRes | .tuplePutRes => 1

/-- The steps of a call, with those of the handlers that it causes. -/
def Txn.price (txn : Txn) : ℕ := 8 * txn.cold.length + 5

namespace System

variable {c : Config} {s s' : System} {a : Ledger} {w : NodeT} {store₀ : DbKey → BitVec 32}
  {action : Action} {new : List Packet} {p : Packet}

/-- The threads that have made calls. -/
def workers (s : System) : Finset NodeT := (s.started.map fun e => e.1.worker).toFinset

def threadToGo (s : System) (w : NodeT) : ℕ :=
  if s.halted w.nid = none then (s.threads w).toGo else 0

def msgToGo (s : System) (p : Packet) : ℕ := if s.halted p.dst = none then p.msg.type.toGo else 0

/-- The steps that are left, on the nodes that have not halted. -/
def toGo (s : System) : ℕ := ∑ w ∈ s.workers, s.threadToGo w + (s.net.map s.msgToGo).sum

/-- The price of all calls so far. -/
def price (s : System) : ℕ := (s.started.map fun e => e.2.1.price).sum

/-- A step of a thread in its call, or of a handler. -/
def Action.inner : Action → Bool
  | .thread _ _ | .deliver _ => true
  | _ => false

/-! ### What a step does to the threads and to the network -/

/-- A thread takes a step of its call and sends the messages `new`. -/
structure Advances (s s' : System) (w : NodeT) (ph : Phase) (log : List UndoAction)
    (new : List Packet) : Prop where
  busy : (s.threads w).phase ≠ .idle
  threads : s'.threads = Function.update s.threads w { s.threads w with phase := ph, log := log }
  net : s'.net = new ++ s.net
  started : s'.started = s.started
  halted : s'.halted = s.halted
  toGo : ph.toGo (s.threads w).txn.cold.length log.length + (new.map fun p => p.msg.type.toGo).sum <
    (s.threads w).toGo
  await : ∀ i, ph = .await i → ∃ p ∈ new, p.msg.att.worker = w ∧ p.msg.type.isPut = false
  alloc : ph = .alloc → (s.threads w).miniBatchNum ≠ none

/-- A step that sends nothing. -/
theorem advances_of_silent {ph ph' : Phase} {log : List UndoAction}
    (hphase : (s.threads w).phase = ph) (hne : ph ≠ .idle)
    (hthreads : s'.threads = Function.update s.threads w
      { s.threads w with phase := ph', log := log })
    (hnet : s'.net = s.net) (hstart : s'.started = s.started) (hhalt : s'.halted = s.halted)
    (hlt : ph'.toGo (s.threads w).txn.cold.length log.length <
      ph.toGo (s.threads w).txn.cold.length (s.threads w).log.length) (hawait : ∀ i, ph' ≠ .await i)
    (halloc : ph' = .alloc → (s.threads w).miniBatchNum ≠ none) : Advances s s' w ph' log [] := by
  subst hphase
  exact ⟨hne, hthreads, hnet, hstart, hhalt, hlt, fun i hi => absurd hi (hawait i), halloc⟩

theorem advances_of_move {early : Bool} (h : Move c s (.thread w early) s') :
    ∃ ph log new, Advances s s' w ph log new := by
  cases h with
  | endAcquire hphase | refuse hphase | commit hphase | accessNull hphase | endClear hphase
  | finish hphase =>
    refine ⟨_, _, _, advances_of_silent hphase nofun rfl rfl rfl rfl ?_ nofun nofun⟩
    simp only [Phase.toGo]
    omega
  | toAlloc hphase hop hmb =>
    refine ⟨_, _, _, advances_of_silent hphase nofun rfl rfl rfl rfl ?_ nofun fun _ => hmb⟩
    simp only [Phase.toGo]
    omega
  | lockLocal hphase hop =>
    refine ⟨_, _, _, advances_of_silent hphase nofun rfl rfl rfl rfl ?_ nofun nofun⟩
    have hlt := (List.getElem?_eq_some_iff.mp hop).1
    simp only [Phase.toGo, List.length_append, List.length_singleton]
    omega
  | awaitRefused hphase | awaitGranted hphase =>
    refine ⟨_, _, _, advances_of_silent hphase nofun rfl rfl rfl rfl ?_ nofun nofun⟩
    simp only [Phase.toGo, List.length_set]
    omega
  | @request w i op _ hphase hop =>
    have hlt := (List.getElem?_eq_some_iff.mp hop).1
    refine ⟨.await i, (s.threads w).log ++ [remoteEntry op], [_], by rw [hphase]; exact nofun, rfl,
      rfl, rfl, rfl, ?_, fun _ _ => ⟨_, List.mem_singleton_self _, rfl, rfl⟩, nofun⟩
    simp only [Thread.toGo, hphase, Phase.toGo, MsgType.toGo, List.length_append,
      List.length_singleton, List.map_cons, List.map_nil, List.sum_cons, List.sum_nil]
    omega
  | writeRow hphase hop | readRow hphase hop | writePacket hphase hop | readPacket hphase hop =>
    refine ⟨_, _, _, advances_of_silent hphase nofun rfl rfl rfl rfl ?_ nofun nofun⟩
    have hlt := (List.getElem?_eq_some_iff.mp hop).1
    simp only [Phase.toGo, List.length_set]
    omega
  | alloc hphase =>
    refine ⟨_, _, _, advances_of_silent hphase nofun rfl rfl rfl rfl ?_ nofun nofun⟩
    simp only [Phase.toGo]
    omega
  | @clearLocal w _ _ _ _ _ hphase hact | @clearSkip w _ _ _ _ _ _ hphase hact =>
    refine ⟨_, (s.threads w).log, _, advances_of_silent hphase nofun rfl rfl rfl rfl ?_ nofun nofun⟩
    have hlt := (List.getElem?_eq_some_iff.mp hact).1
    simp only [Phase.toGo]
    omega
  | @clearRemote w rc j act target f res _ hphase hact =>
    have hlt := (List.getElem?_eq_some_iff.mp hact).1
    refine ⟨.clear rc (j + 1), (s.threads w).log, [_], by rw [hphase]; exact nofun, rfl, rfl, rfl,
      rfl, ?_, nofun, nofun⟩
    simp only [Thread.toGo, hphase, Phase.toGo, MsgType.toGo, List.map_cons, List.map_nil,
      List.sum_cons, List.sum_nil]
    omega

/-- A handler takes a message from the network; it may answer it. -/
structure Handles (s s' : System) (p : Packet) (new : List Packet) : Prop where
  mem : p ∈ s.net
  net : s'.net = new ++ s.net.erase p
  threads : ∀ w, ∃ log, s'.threads w = { s.threads w with log := log } ∧
    log.length = (s.threads w).log.length
  started : s'.started = s.started
  halted : s'.halted = s.halted
  toGo : (new.map fun p => p.msg.type.toGo).sum < p.msg.type.toGo

theorem handles_of_move (h : Move c s (.deliver p) s') : ∃ new, Handles s s' p new := by
  have hsame : ∀ w, ∃ log, s.threads w = { s.threads w with log := log } ∧
      log.length = (s.threads w).log.length :=
    fun w => ⟨_, rfl, rfl⟩
  cases h with
  | getReqRefused hp htype | getReqGranted hp htype | putReq hp htype =>
    refine ⟨[_], hp, rfl, hsame, rfl, rfl, ?_⟩
    rw [htype]
    exact Nat.lt_succ_self 1
  | putRes hp htype =>
    refine ⟨[], hp, rfl, hsame, rfl, rfl, ?_⟩
    rw [htype]
    exact Nat.one_pos
  | @getRes _ tid i hp htype hfut =>
    refine ⟨[], hp, rfl, fun w => ?_, rfl, rfl, ?_⟩
    · by_cases hw : w = ⟨p.dst, tid⟩
      · subst hw
        exact ⟨_, Function.update_self _ _ _, List.length_modify _ _ _⟩
      · exact ⟨_, Function.update_of_ne hw _ _, rfl⟩
    · rw [htype]
      exact Nat.one_pos

/-! ### Every step counts -/

theorem threadToGo_congr (hhalt : s'.halted = s.halted)
    (hth : (s'.threads w).toGo = (s.threads w).toGo) : s'.threadToGo w = s.threadToGo w := by
  unfold threadToGo
  rw [hhalt, hth]

theorem msgToGo_congr (hhalt : s'.halted = s.halted) : s'.msgToGo = s.msgToGo := by
  funext p
  unfold msgToGo
  rw [hhalt]

theorem msgToGo_le (s : System) (p : Packet) : s.msgToGo p ≤ p.msg.type.toGo := by
  unfold msgToGo
  split_ifs <;> omega

/-- The messages that are sent. -/
theorem sum_msgToGo_le (s : System) (new : List Packet) :
    (new.map s.msgToGo).sum ≤ (new.map fun p => p.msg.type.toGo).sum :=
  List.sum_le_sum fun p _ => s.msgToGo_le p

theorem Recorded.mem_workers (h : Recorded s) (hw : (s.threads w).phase ≠ .idle) : w ∈ s.workers :=
  List.mem_toFinset.mpr (List.mem_map.mpr ⟨_, h.current w hw, rfl⟩)

theorem toGo_of_advances {log : List UndoAction} (h : Advances s s' w ph log new)
    (hr : Recorded s) (hlive : s.halted w.nid = none) : s'.toGo < s.toGo := by
  have hmem := hr.mem_workers h.busy
  have hworkers : s'.workers = s.workers := by
    unfold workers
    rw [h.started]
  have hself : s'.threadToGo w = ph.toGo (s.threads w).txn.cold.length log.length := by
    unfold threadToGo
    rw [h.halted, if_pos hlive, h.threads, Function.update_self]
    rfl
  have hold : s.threadToGo w = (s.threads w).toGo := if_pos hlive
  have hother : ∑ w' ∈ s.workers.erase w, s'.threadToGo w' =
      ∑ w' ∈ s.workers.erase w, s.threadToGo w' := by
    apply Finset.sum_congr rfl
    intro w' hw'
    apply threadToGo_congr h.halted
    rw [h.threads, Function.update_of_ne (Finset.ne_of_mem_erase hw')]
  have hsent := s.sum_msgToGo_le new
  have hlt := h.toGo
  unfold toGo
  rw [hworkers, h.net, msgToGo_congr h.halted, List.map_append, List.sum_append,
    ← Finset.add_sum_erase _ _ hmem, ← Finset.add_sum_erase _ s.threadToGo hmem, hother, hself,
    hold]
  omega

theorem toGo_of_handles (h : Handles s s' p new) (hlive : s.halted p.dst = none) :
    s'.toGo < s.toGo := by
  have hworkers : s'.workers = s.workers := by
    unfold workers
    rw [h.started]
  have hthreads : ∑ w ∈ s.workers, s'.threadToGo w = ∑ w ∈ s.workers, s.threadToGo w := by
    apply Finset.sum_congr rfl
    intro w _
    obtain ⟨log, hth, hlen⟩ := h.threads w
    apply threadToGo_congr h.halted
    unfold Thread.toGo
    rw [hth, hlen]
  have hold : s.msgToGo p = p.msg.type.toGo := if_pos hlive
  have hnet := (List.perm_cons_erase h.mem).map s.msgToGo
  have hsent := s.sum_msgToGo_le new
  have hlt := h.toGo
  unfold toGo
  rw [hworkers, hthreads, h.net, msgToGo_congr h.halted, List.map_append, List.sum_append,
    hnet.sum_eq, List.map_cons, List.sum_cons, hold]
  omega

/-- A call begins, on credit. -/
theorem toGo_of_enter (txn : Txn) (mb : Option ℕ) (hphase : (s.threads w).phase = .idle) :
    (s.enter w txn mb).toGo ≤ s.toGo + txn.price := by
  have hworkers : (s.enter w txn mb).workers = insert w s.workers := by
    unfold workers
    exact List.toFinset_cons
  have hself : (s.enter w txn mb).threadToGo w ≤ txn.price := by
    have hth : (s.enter w txn mb).threads w = ⟨.acquire 0, (s.threads w).seq + 1, txn, mb, []⟩ :=
      Function.update_self _ _ _
    unfold threadToGo
    rw [hth]
    simp only [Thread.toGo, Phase.toGo, Txn.price, List.length_nil]
    split_ifs <;> omega
  have hold : s.threadToGo w = 0 := by
    unfold threadToGo Thread.toGo
    rw [hphase]
    exact ite_self 0
  have hother : ∑ w' ∈ s.workers.erase w, (s.enter w txn mb).threadToGo w' =
      ∑ w' ∈ s.workers.erase w, s.threadToGo w' := by
    apply Finset.sum_congr rfl
    intro w' hw'
    have hth : (s.enter w txn mb).threads w' = s.threads w' :=
      Function.update_of_ne (Finset.ne_of_mem_erase hw') _ _
    exact threadToGo_congr rfl (congrArg Thread.toGo hth)
  have hsum : ∑ w' ∈ s.workers.erase w, s.threadToGo w' = ∑ w' ∈ s.workers, s.threadToGo w' := by
    apply Finset.sum_erase
    exact hold
  have hnet : ((s.enter w txn mb).net.map (s.enter w txn mb).msgToGo).sum =
      (s.net.map s.msgToGo).sum := rfl
  unfold toGo
  rw [hworkers, hnet, ← Finset.add_sum_erase _ _ (Finset.mem_insert_self w _),
    Finset.erase_insert_eq_erase, hother, hsum]
  omega

/-! ### The end of a process -/

/-- The process of a node ends. -/
def halt (s : System) (n : ℕ) (f : Fault) : System :=
  { s with halted := Function.update s.halted n (some f) }

section Halt
variable {n : ℕ} {f : Fault}

theorem halted_halt_self (s : System) (n : ℕ) (f : Fault) : (s.halt n f).halted n = some f :=
  Function.update_self _ _ _

theorem halted_halt_of_ne (s : System) (f : Fault) {m : ℕ} (h : m ≠ n) :
    (s.halt n f).halted m = s.halted m :=
  Function.update_of_ne h _ _

theorem threadToGo_halt (s : System) (f : Fault) (h : w.nid = n) :
    (s.halt n f).threadToGo w = 0 := by
  unfold threadToGo
  rw [h, halted_halt_self, if_neg nofun]

theorem msgToGo_halt (s : System) (f : Fault) (h : p.dst = n) : (s.halt n f).msgToGo p = 0 := by
  unfold msgToGo
  rw [h, halted_halt_self, if_neg nofun]

theorem threadToGo_halt_le (s : System) (n : ℕ) (f : Fault) (w : NodeT) :
    (s.halt n f).threadToGo w ≤ s.threadToGo w := by
  by_cases hn : w.nid = n
  · rw [threadToGo_halt s f hn]
    exact Nat.zero_le _
  · unfold threadToGo
    rw [halted_halt_of_ne s f hn]
    exact Nat.le_refl _

theorem msgToGo_halt_le (s : System) (n : ℕ) (f : Fault) (p : Packet) :
    (s.halt n f).msgToGo p ≤ s.msgToGo p := by
  by_cases hn : p.dst = n
  · rw [msgToGo_halt s f hn]
    exact Nat.zero_le _
  · unfold msgToGo
    rw [halted_halt_of_ne s f hn]

theorem toGo_halt_le (s : System) (n : ℕ) (f : Fault) : (s.halt n f).toGo ≤ s.toGo :=
  Nat.add_le_add (Finset.sum_le_sum fun w _ => s.threadToGo_halt_le n f w)
    (List.sum_le_sum fun p _ => s.msgToGo_halt_le n f p)

theorem toGo_halt_thread (hr : Recorded s) (hbusy : (s.threads w).phase ≠ .idle)
    (hlive : s.halted w.nid = none) : (s.halt w.nid f).toGo < s.toGo := by
  apply Nat.add_lt_add_of_lt_of_le
  · apply Finset.sum_lt_sum fun w' _ => s.threadToGo_halt_le w.nid f w'
    refine ⟨w, hr.mem_workers hbusy, ?_⟩
    rw [threadToGo_halt s f rfl, threadToGo, if_pos hlive]
    exact Phase.toGo_pos hbusy _ _
  · exact List.sum_le_sum fun p _ => s.msgToGo_halt_le w.nid f p

theorem toGo_halt_deliver (hp : p ∈ s.net) (hlive : s.halted p.dst = none) :
    (s.halt p.dst f).toGo < s.toGo := by
  apply Nat.add_lt_add_of_le_of_lt
  · exact Finset.sum_le_sum fun w _ => s.threadToGo_halt_le p.dst f w
  · apply List.sum_lt_sum _ _ fun p' _ => s.msgToGo_halt_le p.dst f p'
    refine ⟨p, hp, ?_⟩
    rw [msgToGo_halt s f rfl, msgToGo, if_pos hlive]
    cases p.msg.type <;> decide

end Halt

/-! ### All steps -/

theorem live_of_step (h : s.step c action = some s') : s.halted action.node = none := by
  unfold step at h
  split_ifs at h with hhalt
  exact Option.not_isSome_iff_eq_none.mp hhalt

/-- A thread that takes a step is in a call, and a message that is handled is in the network. -/
theorem toGo_of_fault {f : Fault} (hr : Recorded s) (hlive : s.halted action.node = none)
    (hexec : s.exec c action = some (.error f)) :
    (s.halt action.node f).toGo + (if action.inner then 1 else 0) ≤ s.toGo := by
  cases action with
  | start | doneSending => exact s.toGo_halt_le _ f
  | thread w early =>
    refine toGo_halt_thread hr (fun hidle => ?_) hlive
    rw [exec, threadStep, hidle] at hexec
    cases hexec
  | deliver p =>
    refine toGo_halt_deliver ?_ hlive
    by_contra hp
    rw [exec, deliver, if_neg hp] at hexec
    cases hexec

theorem price_congr (hstart : s'.started = s.started) : s'.price = s.price := by
  unfold price
  rw [hstart]

theorem price_enter (s : System) (w : NodeT) (txn : Txn) (mb : Option ℕ) :
    (s.enter w txn mb).price = txn.price + s.price := List.sum_cons

theorem toGo_of_step (hr : Recorded s) (h : s.step c action = some s') :
    s'.toGo + (if action.inner then 1 else 0) + s.price ≤ s.toGo + s'.price := by
  have hlive := live_of_step h
  rcases step_cases h with hmove | ⟨f, hexec, rfl⟩
  · cases action with
    | start w txn mb =>
      cases hmove with
      | @enter _ _ _ id hphase =>
        have hle := toGo_of_enter { txn with id := id } mb hphase
        rw [if_neg nofun, price_enter]
        omega
    | thread w early =>
      obtain ⟨ph, log, new, hadv⟩ := advances_of_move hmove
      have hlt := toGo_of_advances hadv hr hlive
      rw [price_congr hadv.started]
      exact Nat.add_le_add_right hlt _
    | deliver p =>
      obtain ⟨new, hhandles⟩ := handles_of_move hmove
      have hlt := toGo_of_handles hhandles hlive
      rw [price_congr hhandles.started]
      exact Nat.add_le_add_right hlt _
    | doneSending n =>
      cases hmove
      exact Nat.le_refl _
  · have hle := toGo_of_fault hr hlive hexec
    exact Nat.add_le_add_right hle _

/-- **No call takes more steps than its price.**  In every run, whatever the interleaving, the steps
that the threads and the handlers have made, and those that are left, are at most eight for each
cold operation and five for each call that has begun. -/
theorem steps_le_price (c : Config) (value : ℕ → DbKey → BitVec 32)
    (mem : ℕ → ℕ → HotTxnEntry Attempt) (as : List Action) (s : System)
    (hrun : run (System.step c) (init value mem) as = some s) :
    as.countP Action.inner + s.toGo ≤ (s.started.map fun e => 8 * e.2.1.cold.length + 5).sum := by
  have hinv : ∀ s action s', (∃ a, Coupled c (initStore c value) s a ∧ Recorded s) →
      s.step c action = some s' → ∃ a, Coupled c (initStore c value) s' a ∧ Recorded s' := by
    rintro s action s' ⟨a, hc, hr⟩ hstep
    obtain ⟨a', -, h'⟩ := hc.step hr hstep
    exact ⟨a', h'⟩
  have hstep : ∀ s action s', (∃ a, Coupled c (initStore c value) s a ∧ Recorded s) →
      s.step c action = some s' →
      s'.toGo + (if action.inner then 1 else 0) + s.price ≤ s.toGo + s'.price := by
    rintro s action s' ⟨a, -, hr⟩ hstep
    exact toGo_of_step hr hstep
  have hle := run_measure hinv hstep ⟨_, coupled_init c value mem, recorded_init value mem⟩ hrun
  have h0 : (init value mem).toGo = 0 := rfl
  have hprice : (init value mem).price = 0 := rfl
  rw [h0, hprice] at hle
  show _ ≤ s.price
  omega

theorem steps_le_price_writeThenRead :
    ∃ s, run (System.step twoNodes) allFive writeThenRead = some s ∧
    s.started.map (fun e => e.2.1.cold.length) = [1, 1] ∧ writeThenRead.countP Action.inner = 21 ∧
      21 + s.toGo ≤ (s.started.map fun e => 8 * e.2.1.cold.length + 5).sum := by
  have hrun : (run (System.step twoNodes) allFive writeThenRead).map
      (fun s => s.started.map fun e => e.2.1.cold.length) = some [1, 1] := by
    decide +kernel
  obtain ⟨s, hs, hstart⟩ := Option.map_eq_some_iff.mp hrun
  have hcount : writeThenRead.countP Action.inner = 21 := by decide
  exact ⟨s, hs, hstart, hcount, hcount ▸ steps_le_price twoNodes _ _ writeThenRead s hs⟩

/-! ### Who waits has a message on its way -/

/-- A thread that waits for a lock has the answer, or it is on its way. -/
structure Attended (s : System) (w : NodeT) : Prop where
  await : ∀ i, (s.threads w).phase = .await i →
    (∃ act, (s.threads w).log[i]? = some act ∧ act.future.pkt ≠ none) ∨
      ∃ p ∈ s.net, p.msg.att.worker = w ∧ p.msg.type.isPut = false
  alloc : (s.threads w).phase = .alloc → (s.threads w).miniBatchNum ≠ none

/-- The thread has not changed, and its messages are still there. -/
theorem Attended.mono (h : Attended s w) (hth : s'.threads w = s.threads w)
    (hnet : ∀ p ∈ s.net, p.msg.att.worker = w →
      p.msg.type.isPut = false → ∃ p' ∈ s'.net, p'.msg.att.worker = w ∧ p'.msg.type.isPut = false) :
    Attended s' w := by
  constructor
  · intro i hi
    rw [hth] at hi ⊢
    rcases h.await i hi with hans | ⟨p, hp, hw, hput⟩
    · exact .inl hans
    · exact .inr (hnet p hp hw hput)
  · rw [hth]
    exact h.alloc

theorem Attended.advance {log : List UndoAction} (h : ∀ w, Attended s w)
    (hadv : Advances s s' w ph log new) (w' : NodeT) : Attended s' w' := by
  by_cases hw : w' = w
  · subst hw
    have hth : s'.threads w' = { s.threads w' with phase := ph, log := log } := by
      rw [hadv.threads, Function.update_self]
    constructor
    · intro i hi
      rw [hth] at hi
      obtain ⟨p, hp, hatt, hput⟩ := hadv.await i hi
      exact .inr ⟨p, hadv.net ▸ List.mem_append_left _ hp, hatt, hput⟩
    · rw [hth]
      exact hadv.alloc
  · refine (h w').mono (by rw [hadv.threads, Function.update_of_ne hw]) fun p hp hatt hput => ?_
    exact ⟨p, hadv.net ▸ List.mem_append_right _ hp, hatt, hput⟩

/-- A request is answered. -/
theorem Attended.reply {p' : Packet} (h : ∀ w, Attended s w) (hth : s'.threads = s.threads)
    (hnet : s'.net = p' :: s.net.erase p) (hatt : p'.msg.att = p.msg.att)
    (hput : p'.msg.type.isPut = p.msg.type.isPut) (w : NodeT) : Attended s' w := by
  refine (h w).mono (congrFun hth w) fun q hq hw hqput => ?_
  rw [hnet]
  by_cases heq : q = p
  · subst heq
    exact ⟨p', List.mem_cons_self, hatt ▸ hw, hput.trans hqput⟩
  · exact ⟨q, List.mem_cons_of_mem _ ((List.mem_erase_of_ne heq).mpr hq), hw, hqput⟩

/-- The answer arrives at the thread that waits for it. -/
theorem Attended.getRes (h : ∀ w, Attended s w) (hc : Coupled c store₀ s a) {tid i : ℕ}
    (hp : p ∈ s.net) (htype : p.msg.type = .tupleGetRes)
    (hfut : s.openFutures (p.dst, p.msg.msgId) = some (tid, i)) (w : NodeT) :
    Attended ({ s with
      net := s.net.erase p
      openFutures := Function.update s.openFutures (p.dst, p.msg.msgId) none }.setThread
        ⟨p.dst, tid⟩
      { s.threads ⟨p.dst, tid⟩ with
        log := (s.threads ⟨p.dst, tid⟩).log.modify i fun act =>
          { act with future := act.future.setPkt p.msg } }) w := by
  obtain ⟨op, act, hmsg⟩ := (hc.own p.msg.att.worker).msg p hp rfl
  obtain ⟨hphase, -, -, hfut'⟩ := hmsg.waiting (by rw [htype]; rfl)
  rw [(hmsg.getRes htype).1, hfut'] at hfut
  obtain ⟨htid, hi⟩ := Prod.mk.inj (Option.some.inj hfut)
  have hthread : (⟨p.dst, tid⟩ : NodeT) = p.msg.att.worker := by
    rw [(hmsg.getRes htype).1, ← htid]
  rw [hthread, ← hi]
  by_cases hw : w = p.msg.att.worker
  · subst hw
    constructor
    · intro j hj
      rw [setThread_self] at hj ⊢
      obtain rfl : p.msg.op = j := Phase.await.inj (hphase.symm.trans hj)
      refine .inl ⟨{ act with future := act.future.setPkt p.msg }, ?_, nofun⟩
      rw [List.getElem?_modify_eq, hmsg.act_eq]
      rfl
    · intro halloc
      rw [setThread_self] at halloc
      exact nomatch hphase.symm.trans halloc
  · refine (h w).mono (setThread_of_ne _ hw) fun q hq hatt hput => ⟨q, ?_, hatt, hput⟩
    refine (List.mem_erase_of_ne ?_).mpr hq
    rintro rfl
    exact hw hatt.symm

theorem Attended.of_move (h : ∀ w, Attended s w) (hc : Coupled c store₀ s a)
    (hmove : Move c s action s') (w : NodeT) : Attended s' w := by
  cases action with
  | start w' txn mb =>
    cases hmove with
    | @enter _ _ _ id hphase =>
      by_cases hw : w = w'
      · subst hw
        have hth : (s.enter w { txn with id := id } mb).threads w =
            ⟨.acquire 0, (s.threads w).seq + 1, { txn with id := id }, mb, []⟩ :=
            Function.update_self _ _ _
        constructor <;> rw [hth] <;> exact nofun
      · exact (h w).mono (Function.update_of_ne hw _ _) fun p hp hatt hput => ⟨p, hp, hatt, hput⟩
  | thread w' early =>
    obtain ⟨ph, log, new, hadv⟩ := advances_of_move hmove
    exact Attended.advance h hadv w
  | deliver p =>
    cases hmove with
    | getReqRefused _ htype | getReqGranted _ htype | putReq _ htype =>
      apply Attended.reply h (p := p)
      · rfl
      · rfl
      · rfl
      · rw [htype]
        rfl
    | getRes hp htype hfut => exact Attended.getRes h hc hp htype hfut w
    | putRes hp htype =>
      refine (h w).mono rfl fun q hq hatt hput => ⟨q, (List.mem_erase_of_ne ?_).mpr hq, hatt, hput⟩
      rintro rfl
      rw [htype] at hput
      cases hput
  | doneSending n =>
    cases hmove
    exact (h w).mono rfl fun p hp hatt hput => ⟨p, hp, hatt, hput⟩

/-! ### There is a step to make -/

/-- A thread or a handler can take a step. -/
def Enabled (c : Config) (s : System) : Prop :=
  ∃ action s', action.inner = true ∧ s.step c action = some s'

/-- Nothing is going on: no thread is in a call, no message is on its way, no row that counts is
locked, and every call has returned. -/
structure Quiet (c : Config) (s : System) : Prop where
  idle : ∀ w, (s.threads w).phase = .idle
  net : s.net = []
  unlocked : ∀ k, (s.rows (c.owner k, k)).ownerCnt = 0 ∧ (s.rows (c.owner k, k)).lockType = .invalid
  returned : ∀ e ∈ s.started, ∃ rc, (e.1, rc) ∈ s.finished

theorem enabled_of_exec {r : Except Fault System} (hlive : ∀ n, s.halted n = none)
    (hinner : action.inner = true) (hexec : s.exec c action = some r) : Enabled c s := by
  refine ⟨action, ?_⟩
  unfold step
  rw [hlive, hexec]
  exact ⟨_, hinner, rfl⟩

theorem enabled_of_mem (hlive : ∀ n, s.halted n = none) (hp : p ∈ s.net) : Enabled c s := by
  have hexec : ∃ r, s.exec c (.deliver p) = some r := by
    rw [exec, deliver, if_pos hp]
    cases p.msg.type with
    | tupleGetReq =>
      simp only [handleGetReq]
      split <;> exact ⟨_, rfl⟩
    | tupleGetRes =>
      simp only [handleGetRes]
      split <;> exact ⟨_, rfl⟩
    | tuplePutReq => exact ⟨_, rfl⟩
    | tuplePutRes => exact ⟨_, rfl⟩
  obtain ⟨r, hr⟩ := hexec
  exact enabled_of_exec hlive rfl hr

theorem exists_acquire (c : Config) (s : System) (w : NodeT) (i : ℕ) :
    ∃ r, s.acquire c w i false = some r := by
  have hlock : ∀ op mode, ∃ r, s.lockOp c w i op mode false = some r := by
    intro op mode
    simp only [lockOp, Bool.false_eq_true, if_false]
    split_ifs
    · split <;> exact ⟨_, rfl⟩
    · exact ⟨_, rfl⟩
    · exact ⟨_, rfl⟩
  unfold acquire
  simp only
  split
  · split_ifs <;> exact ⟨_, rfl⟩
  · split_ifs
    · exact hlock _ _
    · exact hlock _ _

/-- The future of a lock that was granted or refused is there. -/
theorem FutureOk.exists_get {l : RowLock} {mode : AccessMode} {i : ℕ} {f : TupleFuture}
    (h : FutureOk a l mode ph i f) (hph : ph ≠ .await i) :
    ∃ f', f.get = some f' ∧ (f'.tuple = .exception ∧ ph.rolledBack = true ∨ f'.tuple = .packet ∧
      ∃ res, f'.pkt = some res) := by
  cases h with
  | waiting hphase => exact absurd hphase hph
  | answered hphase => exact absurd hphase hph
  | refused hroll _ => exact ⟨_, rfl, .inl ⟨rfl, hroll⟩⟩
  | @granted res acq => exact ⟨_, rfl, .inr ⟨rfl, res, rfl⟩⟩

theorem exists_access (hc : Coupled c store₀ s a) {i : ℕ}
    (hphase : (s.threads w).phase = .access i) : ∃ r, s.access w i = some r := by
  have hth := (hc.own w).thread
  cases hop : (s.threads w).txn.cold[i]? with
  | none =>
    simp only [access, hop]
    split <;> exact ⟨_, rfl⟩
  | some op =>
    have hlen : (s.threads w).log.length = (s.threads w).txn.cold.length :=
      hth.len _ (by rw [hphase]; rfl)
    have hlt : i < (s.threads w).log.length := hlen ▸ (List.getElem?_eq_some_iff.mp hop).1
    have hact := List.getElem?_eq_getElem hlt
    obtain ⟨op', hop', hok⟩ := hth.entry i _ hact
    obtain rfl := Option.some.inj (hop.symm.trans hop')
    generalize (s.threads w).log[i] = act at hact hok
    cases hlocal : op.locInfo.isLocal with
    | true =>
      have htuple := (hok.ofLocal hlocal).2.1
      have hget : act.future.get = some act.future := by rw [TupleFuture.get, htuple]
      simp only [access, hop, hact, hget, Option.bind_eq_bind, Option.bind_some, accessOp, htuple]
      split_ifs <;> exact ⟨_, rfl⟩
    | false =>
      have hnot : (s.threads w).phase ≠ .await i := by
        rw [hphase]
        intro h
        cases h
      obtain ⟨f, hget, hf⟩ := (hok.ofRemote hlocal).2.exists_get hnot
      rw [hphase] at hf
      have hroll : ¬(f.tuple = .exception ∧ (Phase.access i).rolledBack = true) := by
        rintro ⟨-, h⟩
        cases h
      obtain ⟨htuple, res, hres⟩ := hf.resolve_left hroll
      simp only [access, hop, hact, hget, Option.bind_eq_bind, Option.bind_some, accessOp, htuple,
        hres, Option.map_some]
      exact ⟨_, rfl⟩

theorem exists_clear (hc : Coupled c store₀ s a) {rc : RC} {j : ℕ}
    (hphase : (s.threads w).phase = .clear rc j) : ∃ r, s.clear c w rc j = some r := by
  cases hact : (s.threads w).log[j]? with
  | none =>
    simp only [clear, hact]
    exact ⟨_, rfl⟩
  | some act =>
    obtain ⟨op, -, hok⟩ := (hc.own w).thread.entry j act hact
    cases htarget : act.target with
    | none =>
      simp only [clear, hact, htarget]
      split_ifs
      · exact ⟨_, rfl⟩
      · split <;> exact ⟨_, rfl⟩
    | some target =>
      obtain ⟨f, hget, hf⟩ :=
        (hok.ofRemote (hok.isRemote_of_target htarget)).2.exists_get (by rw [hphase]; exact nofun)
      simp only [clear, hact, htarget, hget, Option.bind_eq_bind, Option.bind_some]
      rcases hf with ⟨htuple, -⟩ | ⟨htuple, res, hres⟩
      · rw [if_pos htuple]
        exact ⟨_, rfl⟩
      · rw [htuple, if_neg nofun, hres]
        exact ⟨_, rfl⟩

/-- A thread that cannot take a step waits for a message. -/
theorem exists_threadStep (hc : Coupled c store₀ s a) (hatt : Attended s w)
    (hbusy : (s.threads w).phase ≠ .idle) (hnet : s.net = []) :
    ∃ r, s.threadStep c w false = some r := by
  unfold threadStep
  cases hphase : (s.threads w).phase with
  | idle => exact absurd hphase hbusy
  | acquire i => exact s.exists_acquire c w i
  | await i =>
    obtain ⟨act, hact, hpkt⟩ :=
      (hatt.await i hphase).resolve_right fun ⟨p, hp, _⟩ => List.not_mem_nil (hnet ▸ hp)
    obtain ⟨res, hres⟩ := Option.ne_none_iff_exists'.mp hpkt
    have hget : ∃ f, act.future.get = some f := by
      unfold TupleFuture.get
      rw [hres]
      split <;> exact ⟨_, rfl⟩
    obtain ⟨f, hf⟩ := hget
    simp only [await, hact, hf, Option.bind_eq_bind, Option.bind_some]
    split_ifs <;> exact ⟨_, rfl⟩
  | access i => exact exists_access hc hphase
  | alloc =>
    obtain ⟨mb, hmb⟩ := Option.ne_none_iff_exists'.mp (hatt.alloc hphase)
    simp only [alloc, hmb, Option.bind_eq_bind, Option.bind_some]
    split <;> exact ⟨_, rfl⟩
  | clear rc j => exact exists_clear hc hphase
  | waitPuts rc =>
    have hputs : s.putResponses w = 0 := by rw [hc.net.puts, hnet, List.countP_nil]
    simp only [finish, hputs, if_true]
    exact ⟨_, rfl⟩

/-- Between the calls no lock is held. -/
theorem Quiet.of_idle (hc : Coupled c store₀ s a) (hr : Recorded s)
    (hidle : ∀ w, (s.threads w).phase = .idle) (hnet : s.net = []) : Quiet c s := by
  have hheld : a.held = [] := List.eq_nil_iff_forall_not_mem.mpr fun l hl =>
    (hc.own _).not_held_of_idle (hidle _) hl rfl
  refine ⟨hidle, hnet, fun k => ?_, fun e he => ?_⟩
  · have hlock := hc.rows.lock k
    rw [hheld] at hlock
    exact ⟨hlock.count, hlock.idle rfl⟩
  · exact (hr.running e he).resolve_right fun h => h.2 (hidle _)

theorem attended_init (value : ℕ → DbKey → BitVec 32) (mem : ℕ → ℕ → HotTxnEntry Attempt)
    (w : NodeT) :
    Attended (init value mem) w := ⟨nofun, nofun⟩

/-- **The executor does not get stuck.**  In every state of a run a thread or a handler can take a
step, unless a node has halted or all calls have returned, and then no message is on its way and no
row is locked. -/
theorem quiet_or_enabled (c : Config) (value : ℕ → DbKey → BitVec 32)
    (mem : ℕ → ℕ → HotTxnEntry Attempt) (as : List Action) (s : System)
    (hrun : run (System.step c) (init value mem) as = some s) :
    Enabled c s ∨ Quiet c s ∨ ∃ n, s.halted n ≠ none := by
  have hinv : ∀ s action s', (∃ a, Coupled c (initStore c value) s a ∧ Recorded s ∧
      ∀ w, Attended s w) →
      s.step c action = some s' → ∃ a, Coupled c (initStore c value) s' a ∧ Recorded s' ∧
        ∀ w, Attended s' w := by
    rintro s action s' ⟨a, hc, hr, hatt⟩ hstep
    obtain ⟨a', -, hc', hr'⟩ := hc.step hr hstep
    refine ⟨a', hc', hr', fun w => ?_⟩
    rcases step_cases hstep with hmove | ⟨f, -, rfl⟩
    · exact Attended.of_move hatt hc hmove w
    · exact (hatt w).mono rfl fun p hp hw hput => ⟨p, hp, hw, hput⟩
  obtain ⟨a, hc, hr, hatt⟩ :=
    run_invariant hinv ⟨_, coupled_init c value mem, recorded_init value mem,
      attended_init value mem⟩ hrun
  by_cases hlive : ∀ n, s.halted n = none
  · cases hnet : s.net with
    | cons p net => exact .inl (enabled_of_mem hlive (hnet ▸ List.mem_cons_self))
    | nil =>
      by_cases hidle : ∀ w, (s.threads w).phase = .idle
      · exact .inr (.inl (.of_idle hc hr hidle hnet))
      · obtain ⟨w, hbusy⟩ := not_forall.mp hidle
        obtain ⟨r, hr⟩ := exists_threadStep hc (hatt w) hbusy hnet
        have hexec : s.exec c (.thread w false) = some r := hr
        exact .inl (enabled_of_exec hlive rfl hexec)
  · obtain ⟨n, hn⟩ := not_forall.mp hlive
    exact .inr (.inr ⟨n, hn⟩)

/-- The first call of `writeThenRead` waits for its lock. -/
theorem quiet_or_enabled_writeThenRead :
    ∃ s, run (System.step twoNodes) allFive (writeThenRead.take 3) = some s ∧
    (s.threads ⟨0, 0⟩).phase = .await 0 ∧
    (Enabled twoNodes s ∨ Quiet twoNodes s ∨ ∃ n, s.halted n ≠ none) := by
  have hrun : (run (System.step twoNodes) allFive (writeThenRead.take 3)).map
      (fun s => (s.threads ⟨0, 0⟩).phase) = some (.await 0) := by
    decide +kernel
  obtain ⟨s, hs, hphase⟩ := Option.map_eq_some_iff.mp hrun
  exact ⟨s, hs, hphase, quiet_or_enabled twoNodes _ _ (writeThenRead.take 3) s hs⟩

end System
end P4db
