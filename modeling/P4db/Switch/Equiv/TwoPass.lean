import P4db.Algorithm.TwoPhase
import P4db.Switch.Equiv.MyP4db
import Mathlib.Data.List.Induction
import Mathlib.Data.List.TakeWhile

/-!
## Serializability of the two passes

* `firstPass`, `secondPass`: the instructions of a packet for each pass, and `parse_reg`,
  `emit_waiting`, `emit_passed`: what the parser and the deparser make of them.
* `foldl_execReg`: the accesses of a pass.
* `Covers`: the lock bits of the cells that a packet uses.
* `two_pass_serializable`: the accesses are serializable in the order of the successful first
  traversals.
-/

namespace P4db.MyP4db

variable {g : Flight} {l : List RegInstr} {o pkt : Packet} {x : RegInstr}

/-! ### Instructions -/

/-- The cell that an instruction is for, if any. -/
def RegInstr.cell? (x : RegInstr) : Option Cell :=
  let n := (x.type &&& negStop).toNat
  if 1 ≤ n ∧ n ≤ numRegs then some (n - 1, x.idx) else none

/-- The instructions before the first stop bit. -/
def upTo (l : List RegInstr) : List RegInstr := l.takeWhile fun x => !hasStop x.type

/-- The instructions from the first stop bit on. -/
def after (l : List RegInstr) : List RegInstr := l.dropWhile fun x => !hasStop x.type

/-- The instructions for the first pass. -/
def Packet.firstPass (pkt : Packet) : List RegInstr := upTo pkt.instrs

/-- The instructions for the second pass: from the first stop bit to the next. -/
def Packet.secondPass (pkt : Packet) : List RegInstr :=
  match after pkt.instrs with
  | [] => []
  | x :: l => x :: upTo l

/-- The stop bit of the first instruction is removed. -/
def clearStop : List RegInstr → List RegInstr
  | [] => []
  | x :: l => { x with type := x.type &&& negStop } :: l

theorem upTo_cons (x : RegInstr) (l : List RegInstr) :
    upTo (x :: l) = if hasStop x.type then [] else x :: upTo l := by
  cases h : hasStop x.type <;> simp [upTo, h]

theorem after_cons (x : RegInstr) (l : List RegInstr) :
    after (x :: l) = if hasStop x.type then x :: l else after l := by
  cases h : hasStop x.type <;> simp [after, h]

theorem hasStop_skip : hasStop skip = false := rfl

theorem and_negStop {type : BitVec 8} (h : hasStop type = false) : type &&& negStop = type := by
  revert type
  decide

theorem hasStop_and_negStop (type : BitVec 8) : hasStop (type &&& negStop) = false := by
  revert type
  decide

/-- The cell of an instruction that the parser takes as `reg_i`. -/
theorem cell?_of_type {i : ℕ} (hstop : hasStop x.type = false) (hskip : x.type ≠ skip)
    (hle : x.type.toNat ≤ numRegs) (hi : i = x.type.toNat - 1) : x.cell? = some (i, x.idx) := by
  have hpos : 1 ≤ x.type.toNat := by
    rw [Nat.one_le_iff_ne_zero]
    intro hzero
    exact hskip (BitVec.eq_of_toNat_eq hzero)
  simp only [RegInstr.cell?, and_negStop hstop]
  rw [if_pos ⟨hpos, hle⟩, hi]

theorem cell?_clear (x : RegInstr) :
    RegInstr.cell? { x with type := x.type &&& negStop } = x.cell? := by
  simp only [RegInstr.cell?, and_negStop (hasStop_and_negStop x.type)]

/-! ### The parser -/

/-- What `parse_regs` extracts stands before the first stop bit. -/
theorem parseRegs_spec {last : BitVec 8} {reg reg' : ℕ → Option RegInstr} {nextType : BitVec 8}
    {rest : List RegInstr} (h : parseRegs last l reg = some (reg', nextType, rest)) :
    rest = after l ∧ nextType = (rest.head?.map RegInstr.type).getD last ∧
      ∀ i x, reg' i = some x → reg i = some x ∨
        x ∈ upTo l ∧ x.type ≠ skip ∧ x.type.toNat ≤ numRegs ∧ i = x.type.toNat - 1 := by
  induction l generalizing reg with
  | nil =>
    simp only [parseRegs, Option.ite_none_right_eq_some, Option.some.injEq, Prod.mk.injEq] at h
    obtain ⟨-, rfl, rfl, rfl⟩ := h
    exact ⟨rfl, rfl, fun i x hx => .inl hx⟩
  | cons y l ih =>
    rw [parseRegs] at h
    split_ifs at h with hstop htype
    · simp only [Option.some.injEq, Prod.mk.injEq] at h
      obtain ⟨rfl, rfl, rfl⟩ := h
      refine ⟨?_, rfl, fun i x hx => .inl hx⟩
      rw [after_cons, if_pos hstop]
    · obtain ⟨hrest, hnext, hreg⟩ := ih h
      rw [after_cons, upTo_cons, if_neg hstop, if_neg hstop]
      refine ⟨hrest, hnext, fun i x hx => ?_⟩
      rcases hreg i x hx with hx | ⟨hx, htype'⟩
      · -- it is `y`, or it was there before
        rcases eq_or_ne i (y.type.toNat - 1) with rfl | hi
        · rw [Function.update_self, Option.some.injEq] at hx
          subst hx
          exact .inr ⟨List.mem_cons_self, htype.1, htype.2, rfl⟩
        · rw [Function.update_of_ne hi] at hx
          exact .inl hx
      · exact .inr ⟨List.mem_cons_of_mem _ hx, htype'⟩

theorem mem_upTo_of_mem_takeWhile (h : x ∈ l.takeWhile fun x => x.type = skip) :
    x ∈ upTo l ∧ x.type = skip := by
  induction l with
  | nil => exact absurd h List.not_mem_nil
  | cons y l ih =>
    by_cases hy : y.type = skip
    · rw [List.takeWhile_cons_of_pos (by simpa using hy)] at h
      rw [upTo_cons, hy, hasStop_skip, if_neg Bool.false_ne_true]
      rcases List.mem_cons.mp h with rfl | h
      · exact ⟨List.mem_cons_self, hy⟩
      · exact ⟨List.mem_cons_of_mem _ (ih h).1, (ih h).2⟩
    · rw [List.takeWhile_cons_of_neg (by simpa using hy)] at h
      exact absurd h List.not_mem_nil

theorem mem_upTo_of_mem_dropWhile (h : x ∈ upTo (l.dropWhile fun x => x.type = skip)) :
    x ∈ upTo l := by
  induction l with
  | nil => exact h
  | cons y l ih =>
    by_cases hy : y.type = skip
    · rw [List.dropWhile_cons_of_pos (by simpa using hy)] at h
      rw [upTo_cons, hy, hasStop_skip, if_neg Bool.false_ne_true]
      exact List.mem_cons_of_mem _ (ih h)
    · rwa [List.dropWhile_cons_of_neg (by simpa using hy)] at h

theorem after_dropWhile_skip (l : List RegInstr) :
    after (l.dropWhile fun x => x.type = skip) = after l := by
  induction l with
  | nil => rfl
  | cons y l ih =>
    by_cases hy : y.type = skip
    · rw [List.dropWhile_cons_of_pos (by simpa using hy), ih, after_cons, hy, hasStop_skip,
        if_neg Bool.false_ne_true]
    · rw [List.dropWhile_cons_of_neg (by simpa using hy)]

/-- The headers of a packet. -/
structure Parsed (pkt : Packet) (hdr : Header) : Prop where
  regSkip : ∀ x ∈ hdr.regSkip, x ∈ upTo pkt.instrs ∧ x.type = skip
  reg : ∀ i x, hdr.reg i = some x → x ∈ upTo (pkt.instrs.dropWhile fun x => x.type = skip) ∧
    x.cell? = some (i, x.idx)
  rest : hdr.rest = after pkt.instrs
  nextType : hdr.nextType = (hdr.rest.head?.map RegInstr.type).getD pkt.last
  last : hdr.last = pkt.last

theorem hasStop_of_mem_upTo (h : x ∈ upTo l) : hasStop x.type = false := by
  simpa using List.mem_takeWhile_imp h

theorem parsed_of_parse {hdr : Header} (h : parse pkt = some hdr) : Parsed pkt hdr := by
  simp only [parse, Option.ite_none_right_eq_some, Option.map_eq_some_iff] at h
  obtain ⟨-, ⟨reg, nextType, rest⟩, hregs, rfl⟩ := h
  obtain ⟨hrest, hnext, hreg⟩ := parseRegs_spec hregs
  rw [after_dropWhile_skip] at hrest
  refine ⟨fun x hx => mem_upTo_of_mem_takeWhile hx, fun i x hx => ?_, hrest, hnext, rfl⟩
  · rcases hreg i x hx with hx | ⟨hx, hskip, hle, hi⟩
    · exact absurd hx (by simp)
    · exact ⟨hx, cell?_of_type (hasStop_of_mem_upTo hx) hskip hle hi⟩

/-! ### The deparser -/

theorem upTo_append (h : ∀ x ∈ l, hasStop x.type = false) (l' : List RegInstr) :
    upTo (l ++ l') = l ++ upTo l' :=
  List.takeWhile_append_of_pos fun x hx => by simp [h x hx]

theorem after_append (h : ∀ x ∈ l, hasStop x.type = false) (l' : List RegInstr) :
    after (l ++ l') = after l' :=
  List.dropWhile_append_of_pos fun x hx => by simp [h x hx]

theorem after_after (l : List RegInstr) : after (after l) = after l := by
  induction l with
  | nil => rfl
  | cons x l ih =>
    rw [after_cons]
    split_ifs with hx
    · rw [after_cons, if_pos hx]
    · exact ih

theorem upTo_after (l : List RegInstr) : upTo (after l) = [] := by
  induction l with
  | nil => rfl
  | cons x l ih =>
    rw [after_cons]
    split_ifs with hx
    · rw [upTo_cons, if_pos hx]
    · exact ih

/-- The headers that the deparser emits. -/
theorem mem_filterMap_reg {reg : ℕ → Option RegInstr} (h : x ∈ (List.range numRegs).filterMap reg) :
    ∃ i < numRegs, reg i = some x := by
  obtain ⟨i, hi, hx⟩ := List.mem_filterMap.mp h
  exact ⟨i, List.mem_range.mp hi, hx⟩

/-- A packet that is not let in keeps its instructions. -/
theorem emit_waiting {hdr hdr' : Header} (h : Parsed pkt hdr) (hskip : hdr'.regSkip = hdr.regSkip)
    (hreg : hdr'.reg = hdr.reg) (hnext : hdr'.nextType = hdr.nextType)
    (hrest : hdr'.rest = hdr.rest) :
    (∀ x ∈ upTo hdr'.emit.instrs, x ∈ upTo pkt.instrs) ∧
    after hdr'.emit.instrs = after pkt.instrs := by
  have hinstrs : hdr'.emit.instrs =
      hdr'.regSkip ++ (List.range numRegs).filterMap hdr'.reg ++ after pkt.instrs := by
    simp only [Header.emit, hrest, hnext, h.nextType, ← h.rest]
    cases hdr.rest <;> rfl
  have hmem : ∀ x ∈ hdr'.regSkip ++ (List.range numRegs).filterMap hdr'.reg, x ∈
      upTo pkt.instrs := by
    intro x hx
    rcases List.mem_append.mp hx with hx | hx
    · exact (h.regSkip x (hskip ▸ hx)).1
    · obtain ⟨i, -, hx⟩ := mem_filterMap_reg hx
      exact mem_upTo_of_mem_dropWhile (h.reg i x (hreg ▸ hx)).1
  have hstop := fun x hx => hasStop_of_mem_upTo (hmem x hx)
  rw [hinstrs, upTo_append hstop, after_append hstop, upTo_after, after_after, List.append_nil]
  exact ⟨hmem, rfl⟩

/-- The instructions of the first pass are skipped in the second. -/
theorem emit_passed {hdr hdr' : Header} (h : Parsed pkt hdr) (hskip : hdr'.regSkip = hdr.regSkip)
    (hreg : ∀ i < numRegs, ∀ x, hdr'.reg i = some x → x.type = skip)
    (hnext : hdr'.nextType = hdr.nextType &&& negStop) (hrest : hdr'.rest = hdr.rest) :
    ∃ z, (∀ x ∈ z, x.type = skip) ∧ hdr'.emit.instrs = z ++ clearStop (after pkt.instrs) := by
  refine ⟨hdr'.regSkip ++ (List.range numRegs).filterMap hdr'.reg, fun x hx => ?_, ?_⟩
  · rcases List.mem_append.mp hx with hx | hx
    · exact (h.regSkip x (hskip ▸ hx)).2
    · obtain ⟨i, hi, hx⟩ := mem_filterMap_reg hx
      exact hreg i hi x hx
  · simp only [Header.emit, hrest, hnext, h.nextType, ← h.rest]
    cases hdr.rest <;> rfl

/-- What is extracted for the second pass. -/
theorem cell_of_passed {hdr : Header} (h : Parsed pkt hdr) {z : List RegInstr}
    (hz : ∀ x ∈ z, x.type = skip) (hinstrs : pkt.instrs = z ++ clearStop (after o.instrs)) {i : ℕ}
    (hx : hdr.reg i = some x) : ∃ y ∈ o.secondPass, y.cell? = some (i, x.idx) := by
  obtain ⟨hmem, hcell⟩ := h.reg i x hx
  rw [hinstrs, List.dropWhile_append_of_pos fun x hx => by simpa using hz x hx] at hmem
  have hmem := mem_upTo_of_mem_dropWhile hmem
  unfold Packet.secondPass
  cases hafter : after o.instrs with
  | nil => simp [hafter, clearStop, upTo] at hmem
  | cons y l =>
    rw [hafter, clearStop, upTo_cons, hasStop_and_negStop, if_neg Bool.false_ne_true] at hmem
    rcases List.mem_cons.mp hmem with rfl | hmem
    · rw [cell?_clear] at hcell
      exact ⟨y, List.mem_cons_self, hcell⟩
    · exact ⟨x, List.mem_cons_of_mem _ hmem, hcell⟩

/-! ### Accesses -/

theorem replay_singleton {regs : Cell → BitVec 32} (id : ℕ) (c : Cell) (rv : BitVec 32)
    (x : RegInstr) :
    Conflict.replay regs [(⟨id, c, rv, if x.op = write then some x.data else none⟩ : Access)] =
      if x.op = write then Function.update regs c x.data else regs := by
  by_cases hw : x.op = write <;> simp [Conflict.replay, Conflict.Access.apply, hw]

/-- The action on one array. -/
theorem execReg_cases (id : ℕ) (regs : Cell → BitVec 32) (reg : ℕ → Option RegInstr)
    (log : List Access) (j : ℕ) :
    ∃ new reg', execReg id (regs, reg, log) j = (Conflict.replay regs new, reg', log ++ new) ∧
      Conflict.Legal regs new ∧
      (∀ a ∈ new, a.txn = id ∧ ∃ i x, reg i = some x ∧ a.item = (i, x.idx)) ∧
      ∀ i x, reg' i = some x → (∃ y, reg i = some y ∧ y.idx = x.idx) ∧
        (i ≠ j ∧ reg i = some x ∨ i = j ∧ x.type = skip) := by
  cases hreg : reg j with
  | none =>
    refine ⟨[], reg, ?_, trivial, by simp, fun i x hx => ⟨⟨x, hx, rfl⟩, .inl ⟨?_, hx⟩⟩⟩
    · simp [execReg, hreg, Conflict.replay]
    · rintro rfl
      exact absurd (hreg.symm.trans hx) (by simp)
  | some y =>
    refine ⟨[⟨id, (j, y.idx), regs (j, y.idx), if y.op = write then some y.data else none⟩],
      Function.update reg j (some { y with data := regs (j, y.idx), type := skip }), ?_,
        ⟨rfl, trivial⟩, ?_,
      fun i x hx => ?_⟩
    · simp only [execReg, hreg, replay_singleton]
    · intro a ha
      obtain rfl := List.mem_singleton.mp ha
      exact ⟨rfl, j, y, hreg, rfl⟩
    · rcases eq_or_ne i j with rfl | hi
      · rw [Function.update_self, Option.some.injEq] at hx
        exact ⟨⟨y, hreg, hx ▸ rfl⟩, .inr ⟨rfl, hx ▸ rfl⟩⟩
      · rw [Function.update_of_ne hi] at hx
        exact ⟨⟨x, hx, rfl⟩, .inl ⟨hi, hx⟩⟩

/-- The accesses of packet `id` to the arrays `l`: they read what is in the registers, they are
those that the headers ask for, and the instructions are marked as done. -/
theorem foldl_execReg (id : ℕ) (l : List ℕ) (regs : Cell → BitVec 32) (reg : ℕ → Option RegInstr)
    (log : List Access) : ∃ new reg',
      l.foldl (execReg id) (regs, reg, log) = (Conflict.replay regs new, reg', log ++ new) ∧
      Conflict.Legal regs new ∧
      (∀ a ∈ new, a.txn = id ∧ ∃ i x, reg i = some x ∧ a.item = (i, x.idx)) ∧
      (∀ i x, reg' i = some x → ∃ y, reg i = some y ∧ y.idx = x.idx) ∧
      ∀ i ∈ l, ∀ x, reg' i = some x → x.type = skip := by
  induction l using List.reverseRecOn with
  | nil =>
    exact ⟨[], reg, by rw [List.append_nil]; rfl, trivial, nofun, fun i x hx => ⟨x, hx, rfl⟩, nofun⟩
  | append_singleton l j ih =>
    obtain ⟨new, reg', hfold, hlegal, hnew, hidx, hmark⟩ := ih
    obtain ⟨new', reg'', hexec, hlegal', hnew', hreg''⟩ :=
      execReg_cases id (Conflict.replay regs new) reg' (log ++ new) j
    refine ⟨new ++ new', reg'', ?_, Conflict.legal_append.mpr ⟨hlegal, hlegal'⟩, fun a ha => ?_,
      fun i x hx => ?_, fun i hi x hx => ?_⟩
    · rw [List.foldl_append, hfold, List.foldl_cons, List.foldl_nil, hexec, Conflict.replay_append,
        List.append_assoc]
    · rcases List.mem_append.mp ha with ha | ha
      · exact hnew a ha
      · obtain ⟨htxn, i, x, hx, hitem⟩ := hnew' a ha
        obtain ⟨y, hy, hidx⟩ := hidx i x hx
        exact ⟨htxn, i, y, hy, by rw [hitem, hidx]⟩
    · obtain ⟨⟨y, hy, hyx⟩, -⟩ := hreg'' i x hx
      obtain ⟨z, hz, hzy⟩ := hidx i y hy
      exact ⟨z, hz, hzy.trans hyx⟩
    · rcases (hreg'' i x hx).2 with ⟨hij, hx'⟩ | ⟨-, hskip⟩
      · refine hmark i ?_ x hx'
        rcases List.mem_append.mp hi with hi | hi
        · exact hi
        · exact absurd (List.mem_singleton.mp hi) hij
      · exact hskip

/-- The accesses of a pass. -/
structure Accesses (id : ℕ) (regs : Cell → BitVec 32) (hdr : Header) (new : List Access) :
    Prop where
  legal : Conflict.Legal regs new
  txn : ∀ a ∈ new, a.txn = id
  item : ∀ a ∈ new, ∃ i x, hdr.reg i = some x ∧ a.item = (i, x.idx)

theorem access_cases (id : ℕ) (regs : Cell → BitVec 32) (hdr : Header) : ∃ new reg,
    access id regs hdr = (Conflict.replay regs new, { hdr with reg := reg }, new) ∧
      Accesses id regs hdr new ∧ ∀ i < numRegs, ∀ x, reg i = some x → x.type = skip := by
  obtain ⟨new, reg, hfold, hlegal, hnew, -, hmark⟩ :=
    foldl_execReg id (List.range numRegs) regs hdr.reg []
  refine ⟨new, reg, ?_, ⟨hlegal, fun a ha => (hnew a ha).1, fun a ha => (hnew a ha).2⟩,
    fun i hi => ?_⟩
  · simp only [access, hfold, List.nil_append]
  · exact hmark i (List.mem_range.mpr hi)

/-! ### Lock bits -/

/-- Lock bits are assigned to some cells.  Every cell that the packet uses in its second pass has a
bit, which the packet acquires, and the packet checks the bits of all cells that it uses. -/
structure Covers (bit : Cell → Option ℕ) (pkt : Packet) : Prop where
  acquire : ∀ x ∈ pkt.secondPass, ∀ cell ∈ x.cell?, ∃ b ∈ bit cell,
    pkt.lockInfo.locksAcquire.getLsbD b = true
  check : ∀ x ∈ pkt.firstPass ++ pkt.secondPass, ∀ cell ∈ x.cell?, ∀ b ∈ bit cell,
    pkt.lockInfo.locksCheck.getLsbD b = true

instance (bit : Cell → Option ℕ) (pkt : Packet) : Decidable (Covers bit pkt) :=
  decidable_of_iff (_ ∧ _) ⟨fun h => ⟨h.1, h.2⟩, fun h => ⟨h.acquire, h.check⟩⟩

/-- Before the first pass of a packet that entered as `o`. -/
structure Waiting (o pkt : Packet) : Prop where
  isSecondPass : pkt.lockInfo.isSecondPass = 0
  first : ∀ x ∈ upTo pkt.instrs, x ∈ upTo o.instrs
  second : after pkt.instrs = after o.instrs

/-- Between the passes of a packet that entered as `o`. -/
structure Passed (o pkt : Packet) : Prop where
  isSecondPass : pkt.lockInfo.isSecondPass = 1
  undo : pkt.lockInfo.locksUndo = pkt.lockInfo.locksAcquire
  acquire : pkt.lockInfo.locksAcquire ≠ 0
  instrs : ∃ z, (∀ x ∈ z, x.type = skip) ∧ pkt.instrs = z ++ clearStop (after o.instrs)

namespace State

/-- A circulating packet, which entered as `o`. -/
structure FlightInv (s : State) (f : Flight) (o : Packet) : Prop where
  entered : s.entered[f.id]? = some o
  acquire : f.pkt.lockInfo.locksAcquire = o.lockInfo.locksAcquire
  check : f.pkt.lockInfo.locksCheck = o.lockInfo.locksCheck
  pass : Waiting o f.pkt ∧ f.id ∉ s.order ∨ Passed o f.pkt ∧ f.id ∈ s.order

theorem FlightInv.waiting {s : State} {f : Flight} (h : FlightInv s f o)
    (hpass : f.pkt.lockInfo.isSecondPass ≠ 1) : Waiting o f.pkt ∧ f.id ∉ s.order := by
  rcases h.pass with hw | ⟨hp, -⟩
  · exact hw
  · exact absurd hp.isSecondPass hpass

theorem FlightInv.passed {s : State} {f : Flight} (h : FlightInv s f o)
    (hpass : f.pkt.lockInfo.isSecondPass = 1) : Passed o f.pkt ∧ f.id ∈ s.order := by
  rcases h.pass with ⟨hw, -⟩ | hp
  · rw [hw.isSecondPass] at hpass
    exact absurd hpass (by decide)
  · exact hp

/-- Between its passes a packet holds locks. -/
theorem FlightInv.waiting_of_undo {s : State} {f : Flight} (h : FlightInv s f o)
    (hundo : f.pkt.lockInfo.locksUndo = 0) : Waiting o f.pkt ∧ f.id ∉ s.order := by
  rcases h.pass with hw | ⟨hp, -⟩
  · exact hw
  · rw [hp.undo] at hundo
    exact absurd hundo hp.acquire

/-- The invariant behind serializability.  The point is `held`: while a packet is between its
passes, every packet that succeeded after it checks none of its locks. -/
structure SerialInv (bit : Cell → Option ℕ) (regs : Cell → BitVec 32) (s : State) : Prop where
  lock : LockInv s
  legal : Conflict.Legal regs s.history
  replay : s.sw.reg = Conflict.replay regs s.history
  ids : (s.circulating.map Flight.id).Nodup
  flight : ∀ f ∈ s.circulating, ∃ o, FlightInv s f o
  nodup : s.order.Nodup
  order_lt : ∀ id ∈ s.order, id < s.entered.length
  txn_mem : ∀ a ∈ s.history, a.txn ∈ s.order
  check : ∀ a ∈ s.history, ∀ o, s.entered[a.txn]? = some o → ∀ b, bit a.item = some b →
    o.lockInfo.locksCheck.getLsbD b = true
  ordered : Conflict.Ordered s.history s.order
  held : ∀ f ∈ s.circulating, f.pkt.lockInfo.isSecondPass = 1 → ∀ q o, [f.id, q].Sublist s.order →
    s.entered[q]? = some o → f.pkt.lockInfo.locksAcquire &&& o.lockInfo.locksCheck = 0
  refused : ∀ id ∈ s.refused.map Prod.fst, id ∉ s.order ∧ id < s.entered.length ∧
    ∀ f ∈ s.circulating, f.id ≠ id
  completed : ∀ id ∈ s.completed.map Prod.fst, id ∈ s.order

variable {bit : Cell → Option ℕ} {regs : Cell → BitVec 32} {s s' : State}

theorem serialInv_init (bit : Cell → Option ℕ) (regs : Cell → BitVec 32) :
    SerialInv bit regs (init regs) where
  lock := lockInv_init regs
  legal := trivial
  replay := rfl
  ids := List.nodup_nil
  flight := nofun
  nodup := List.nodup_nil
  order_lt := nofun
  txn_mem := nofun
  check := nofun
  ordered _ _ h := absurd (h.subset List.mem_cons_self) List.not_mem_nil
  held := nofun
  refused := nofun
  completed := nofun

/-- The packets that have entered do not change. -/
theorem entered_concat {l : List Packet} {i : ℕ} (hi : i < l.length) :
    (l ++ [pkt])[i]? = some o ↔ l[i]? = some o := by
  rw [List.getElem?_append_left hi]

theorem serialInv_enter (h : SerialInv bit regs s) (hstep : s.enter pkt = some s') :
    SerialInv bit regs s' := by
  have hlock := lockInv_enter h.lock hstep
  simp only [enter, Option.ite_none_right_eq_some, Option.some.injEq] at hstep
  obtain ⟨⟨-, hpass, -⟩, rfl⟩ := hstep
  have hlt : ∀ f ∈ s.circulating, f.id < s.entered.length := by
    intro f hf
    obtain ⟨o, ho⟩ := h.flight f hf
    exact (List.getElem?_eq_some_iff.mp ho.entered).1
  have hnew : s.entered.length ∉ s.order := fun hmem => (h.order_lt _ hmem).ne rfl
  refine { h with
    lock := hlock, ids := ?_, flight := ?_, order_lt := ?_, check := ?_, held := ?_, refused := ?_ }
  · rw [List.map_cons, List.nodup_cons]
    refine ⟨fun hmem => ?_, h.ids⟩
    obtain ⟨f, hf, heq⟩ := List.mem_map.mp hmem
    exact (hlt f hf).ne heq
  · intro f hf
    rcases List.mem_cons.mp hf with rfl | hf
    · refine ⟨pkt, ⟨?_, rfl, rfl, .inl ⟨⟨hpass, fun x hx => hx, rfl⟩, hnew⟩⟩⟩
      exact List.getElem?_concat_length
    · obtain ⟨o, ho⟩ := h.flight f hf
      exact ⟨o, ⟨(entered_concat (hlt f hf)).mpr ho.entered, ho.acquire, ho.check, ho.pass⟩⟩
  · intro id hid
    rw [List.length_append]
    exact Nat.lt_add_right _ (h.order_lt id hid)
  · intro a ha o ho
    exact h.check a ha o ((entered_concat (h.order_lt _ (h.txn_mem a ha))).mp ho)
  · intro f hf hsecond q o hsub ho
    have hq : q ∈ s.order := hsub.subset (by simp)
    rcases List.mem_cons.mp hf with rfl | hf
    · exact absurd (hsub.subset List.mem_cons_self) hnew
    · exact h.held f hf hsecond q o hsub ((entered_concat (h.order_lt q hq)).mp ho)
  · intro id hid
    obtain ⟨h₁, h₂, h₃⟩ := h.refused id hid
    refine ⟨h₁, ?_, fun f hf => ?_⟩
    · rw [List.length_append]
      exact Nat.lt_add_right _ h₂
    · rcases List.mem_cons.mp hf with rfl | hf
      · exact h₂.ne'
      · exact h₃ f hf

section Traversal
variable {f : Flight} {others : List Flight} {hdr hdr' : Header} {v : Verdict}

theorem mem_of_traversal (ht : Traversal s s' f others hdr hdr' v) : f ∈ s.circulating :=
  ht.perm.mem_iff.mpr List.mem_cons_self

theorem mem_others_of_traversal (ht : Traversal s s' f others hdr hdr' v) (hg : g ∈ others) :
    g ∈ s.circulating :=
  ht.perm.mem_iff.mpr (List.mem_cons_of_mem _ hg)

theorem nodup_of_traversal (h : SerialInv bit regs s) (ht : Traversal s s' f others hdr hdr' v) :
    (∀ g ∈ others, g.id ≠ f.id) ∧ (others.map Flight.id).Nodup := by
  have hnodup := (ht.perm.map Flight.id).nodup_iff.mp h.ids
  rw [List.map_cons, List.nodup_cons] at hnodup
  exact ⟨fun g hg heq => hnodup.1 (heq ▸ List.mem_map_of_mem hg), hnodup.2⟩

theorem ids_traversal (h : SerialInv bit regs s) (ht : Traversal s s' f others hdr hdr' v) :
    (s'.circulating.map Flight.id).Nodup := by
  obtain ⟨hne, hnodup⟩ := nodup_of_traversal h ht
  rw [ht.circulating]
  split_ifs
  · rw [List.map_cons, List.nodup_cons]
    refine ⟨fun hmem => ?_, hnodup⟩
    obtain ⟨g, hg, heq⟩ := List.mem_map.mp hmem
    exact hne g hg heq
  · exact hnodup

/-- The packets that circulate after a traversal. -/
theorem mem_circulating_traversal (ht : Traversal s s' f others hdr hdr' v)
    (hg : g ∈ s'.circulating) : g ∈ others ∨
      v.doRecirc = true ∧ g = ⟨f.id, (accessIf v f.id s.sw.reg hdr').2.1.emit⟩ := by
  rw [ht.circulating] at hg
  split_ifs at hg with hrecirc
  · rcases List.mem_cons.mp hg with hg | hg
    · exact .inr ⟨hrecirc, hg⟩
    · exact .inl hg
  · exact .inl hg

/-- The other packets stay as they are. -/
theorem flight_others (h : SerialInv bit regs s) (ht : Traversal s s' f others hdr hdr' v)
    (hg : g ∈ others) (horder : g.id ∈ s'.order ↔ g.id ∈ s.order) : ∃ o, FlightInv s' g o := by
  obtain ⟨o, ho⟩ := h.flight g (mem_others_of_traversal ht hg)
  refine ⟨o, ⟨?_, ho.acquire, ho.check, ?_⟩⟩
  · rw [ht.entered]
    exact ho.entered
  · rw [horder]
    exact ho.pass

/-- A packet that was given up is not the one that traverses the switch, and it does not come
back. -/
theorem refused_traversal (h : SerialInv bit regs s) (ht : Traversal s s' f others hdr hdr' v)
    {id : ℕ} (hid : id ∈ s.refused.map Prod.fst) :
    id ∉ s.order ∧ id ≠ f.id ∧ id < s'.entered.length ∧ ∀ g ∈ s'.circulating, g.id ≠ id := by
  obtain ⟨horder, hlt, hne⟩ := h.refused id hid
  have hidf := hne f (mem_of_traversal ht)
  refine ⟨horder, hidf.symm, ht.entered ▸ hlt, fun g hg => ?_⟩
  rcases mem_circulating_traversal ht hg with hg | ⟨-, rfl⟩
  · exact hne g (mem_others_of_traversal ht hg)
  · exact hidf

/-- A packet that finds none of its locks set checks no lock that is held between passes. -/
theorem disjoint_of_myLock (h : SerialInv bit regs s) (hg : g ∈ s.circulating)
    (hsecond : g.pkt.lockInfo.isSecondPass = 1) {locks : BitVec 32}
    (hr : s.sw.myLock &&& locks = 0) : g.pkt.lockInfo.locksAcquire &&& locks = 0 := by
  obtain ⟨o, ho⟩ := h.flight g hg
  have hset := h.lock.exact.and_word (List.mem_map_of_mem hg)
  rw [(ho.passed hsecond).1.undo] at hset
  rw [← hset, BitVec.and_assoc, hr]
  exact BitVec.and_zero

/-- The locks that a packet holds between its passes keep others away: who has accessed a cell under
such a lock succeeded earlier. -/
theorem sublist_of_held (h : SerialInv bit regs s) (hf : f ∈ s.circulating) (ho : FlightInv s f o)
    (hpass : f.pkt.lockInfo.isSecondPass = 1) {a : Access} (ha : a ∈ s.history)
    (hne : a.txn ≠ f.id) {n : ℕ} (hbit : bit a.item = some n)
    (hset : o.lockInfo.locksAcquire.getLsbD n = true) : [a.txn, f.id].Sublist s.order := by
  have hmem := h.txn_mem a ha
  have hentered := List.getElem?_eq_getElem (h.order_lt _ hmem)
  rcases Conflict.pair_sublist_total hmem (ho.passed hpass).2 hne with hab | hba
  · exact hab
  · have hheld := h.held f hf hpass a.txn _ hba hentered
    rw [ho.acquire] at hheld
    have hclear := LockWord.and_eq_zero_iff.mp hheld n hset
    rw [h.check a ha _ hentered n hbit] at hclear
    exact absurd hclear nofun

/-- A traversal without an access. -/
theorem serialInv_noAccess (h : SerialInv bit regs s) (ht : Traversal s s' f others hdr hdr' v)
    (hv : v.doAccess = false) (hpass : hdr.lockInfo.isSecondPass ≠ 1)
    (hpass' : hdr'.lockInfo.isSecondPass = hdr.lockInfo.isSecondPass)
    (hskip : hdr'.regSkip = hdr.regSkip) (hreg : hdr'.reg = hdr.reg)
    (hnext : hdr'.nextType = hdr.nextType) (hrest : hdr'.rest = hdr.rest) :
    SerialInv bit regs s' := by
  obtain ⟨o, ho⟩ := h.flight f (mem_of_traversal ht)
  have hlock := parse_lockInfo ht.parsed
  have hacc : accessIf v f.id s.sw.reg hdr' = (s.sw.reg, hdr', []) := by simp [accessIf, hv]
  have hhistory : s'.history = s.history := by rw [ht.history, hacc, List.append_nil]
  have horder : s'.order = s.order := by rw [ht.order, hv, if_neg (by simp)]
  obtain ⟨hwait, hnot⟩ := ho.waiting (hlock ▸ hpass)
  constructor
  · exact lockInv_traversal h.lock ht
  · rw [hhistory]
    exact h.legal
  · rw [ht.regs, hacc, hhistory]
    exact h.replay
  · exact ids_traversal h ht
  · intro g hg
    rcases mem_circulating_traversal ht hg with hg | ⟨-, rfl⟩
    · exact flight_others h ht hg (by rw [horder])
    · obtain ⟨hacq, hchk⟩ := locks_outcome ht.outcome
      obtain ⟨hfirst, hsecond⟩ := emit_waiting (parsed_of_parse ht.parsed) hskip hreg hnext hrest
      rw [hacc]
      refine ⟨o, by rw [ht.entered]; exact ho.entered, ?_, ?_,
        .inl ⟨⟨?_, ?_, ?_⟩, by rw [horder]; exact hnot⟩⟩
      · exact hacq.trans (hlock ▸ ho.acquire)
      · exact hchk.trans (hlock ▸ ho.check)
      · exact hpass'.trans (hlock ▸ hwait.isSecondPass)
      · exact fun x hx => hwait.first x (hfirst x hx)
      · exact hsecond.trans hwait.second
  · rw [horder]
    exact h.nodup
  · rw [horder, ht.entered]
    exact h.order_lt
  · rw [hhistory, horder]
    exact h.txn_mem
  · rw [hhistory, ht.entered]
    exact h.check
  · rw [hhistory, horder]
    exact h.ordered
  · intro g hg hsecond
    rw [horder, ht.entered]
    rcases mem_circulating_traversal ht hg with hg | ⟨-, rfl⟩
    · exact h.held g (mem_others_of_traversal ht hg) hsecond
    · rw [hacc] at hsecond
      exact absurd (hpass'.symm.trans hsecond) hpass
  · intro id hid'
    rw [horder]
    have hold : id ∈ s.refused.map Prod.fst → id ∉ s.order ∧ id < s'.entered.length ∧
        ∀ g ∈ s'.circulating, g.id ≠ id := by
      intro hmem
      obtain ⟨hord, -, hlt, hne⟩ := refused_traversal h ht hmem
      exact ⟨hord, hlt, hne⟩
    rw [ht.refused] at hid'
    split_ifs at hid' with hgive
    · rcases List.mem_cons.mp hid' with rfl | hmem
      · -- the packet itself is given up, and is not recirculated
        rw [ht.entered]
        refine ⟨hnot, (List.getElem?_eq_some_iff.mp ho.entered).1, fun g hg => ?_⟩
        rcases mem_circulating_traversal ht hg with hg | ⟨hrecirc, -⟩
        · exact (nodup_of_traversal h ht).1 g hg
        · rw [hgive.1] at hrecirc
          exact absurd hrecirc nofun
      · exact hold hmem
    · exact hold hid'
  · intro id hid'
    rw [ht.completed, hv, if_neg (by simp)] at hid'
    rw [horder]
    exact h.completed id hid'

/-- What is known of the history after the accesses `new` of packet `f`. -/
theorem history_traversal (h : SerialInv bit regs s) (ht : Traversal s s' f others hdr hdr' v)
    {new : List Access} (hregs : s'.sw.reg = Conflict.replay s.sw.reg new)
    (hhistory : s'.history = s.history ++ new) (hacc : Accesses f.id s.sw.reg hdr' new)
    (hsub : s.order.Sublist s'.order) (hmem : f.id ∈ s'.order)
    (hcheck : ∀ a ∈ new, ∀ o, s.entered[f.id]? = some o → ∀ b, bit a.item = some b →
      o.lockInfo.locksCheck.getLsbD b = true)
    (hconf : ∀ a ∈ s.history, ∀ b ∈ new, a.txn ≠ b.txn → a.Conflicts b →
      [a.txn, b.txn].Sublist s'.order) :
    Conflict.Legal regs s'.history ∧ s'.sw.reg = Conflict.replay regs s'.history ∧
      (∀ a ∈ s'.history, a.txn ∈ s'.order) ∧
      (∀ a ∈ s'.history, ∀ o, s'.entered[a.txn]? = some o → ∀ b, bit a.item = some b →
        o.lockInfo.locksCheck.getLsbD b = true) ∧
      Conflict.Ordered s'.history s'.order := by
  rw [hhistory, hregs, h.replay, ← Conflict.replay_append, ht.entered]
  refine ⟨Conflict.legal_append.mpr ⟨h.legal, ?_⟩, rfl, fun a ha => ?_, fun a ha => ?_, ?_⟩
  · rw [← h.replay]
    exact hacc.legal
  · rcases List.mem_append.mp ha with ha | ha
    · exact hsub.subset (h.txn_mem a ha)
    · rw [hacc.txn a ha]
      exact hmem
  · rcases List.mem_append.mp ha with ha | ha
    · exact h.check a ha
    · rw [hacc.txn a ha]
      exact hcheck a ha
  · exact h.ordered.append hsub (fun a ha b hb => (hacc.txn a ha).trans (hacc.txn b hb).symm) hconf

/-- The second pass of a packet: what was accessed before was accessed by packets that succeeded
before it. -/
theorem serialInv_second (hcov : ∀ o ∈ s.entered, Covers bit o) (h : SerialInv bit regs s)
    (ht : Traversal s s' f others hdr hdr ⟨true, false⟩) (hundo : hdr.lockInfo.locksUndo ≠ 0)
    (hpass : hdr.lockInfo.isSecondPass = 1) : SerialInv bit regs s' := by
  obtain ⟨o, ho⟩ := h.flight f (mem_of_traversal ht)
  have hlock := parse_lockInfo ht.parsed
  have hcovers := hcov o (List.mem_of_getElem? ho.entered)
  obtain ⟨hp, hmem⟩ := ho.passed (hlock ▸ hpass)
  have horder : s'.order = s.order := by
    rw [ht.order, if_neg]
    exact fun hc => hundo hc.2
  obtain ⟨new, reg, haccess, hacc, -⟩ := access_cases f.id s.sw.reg hdr
  have hregs : s'.sw.reg = Conflict.replay s.sw.reg new := by
    rw [ht.regs, accessIf, if_pos rfl, haccess]
  have hhistory : s'.history = s.history ++ new := by
    rw [ht.history, accessIf, if_pos rfl, haccess]
  -- the cells of the second pass
  have hcell : ∀ a ∈ new, ∃ x ∈ o.secondPass, x.cell? = some a.item := by
    intro a ha
    obtain ⟨i, x, hx, hitem⟩ := hacc.item a ha
    obtain ⟨z, hz, hinstrs⟩ := hp.instrs
    rw [hitem]
    exact cell_of_passed (parsed_of_parse ht.parsed) hz hinstrs hx
  obtain ⟨hlegal, hreplay, htxn, hcheck, hordered⟩ := history_traversal h ht hregs hhistory hacc
    (horder ▸ List.Sublist.refl _) (horder ▸ hmem)
    (by
      intro a ha o' ho' b hb
      obtain rfl : o = o' := Option.some.inj (ho.entered.symm.trans ho')
      obtain ⟨x, hx, hitem⟩ := hcell a ha
      exact hcovers.check x (List.mem_append_right _ hx) a.item hitem b hb)
    (by
      intro a ha b hb hne hconf
      rw [hacc.txn b hb] at hne ⊢
      rw [horder]
      obtain ⟨x, hx, hitem⟩ := hcell b hb
      obtain ⟨n, hbit, hset⟩ := hcovers.acquire x hx b.item hitem
      exact sublist_of_held h (mem_of_traversal ht) ho hp.isSecondPass ha hne (hconf.1 ▸ hbit) hset)
  have hothers : ∀ g ∈ s'.circulating, g ∈ others := by
    intro g hg
    rcases mem_circulating_traversal ht hg with hg | ⟨hrecirc, -⟩
    · exact hg
    · exact absurd hrecirc nofun
  constructor
  · exact lockInv_traversal h.lock ht
  · exact hlegal
  · exact hreplay
  · exact ids_traversal h ht
  · exact fun g hg => flight_others h ht (hothers g hg) (by rw [horder])
  · rw [horder]
    exact h.nodup
  · rw [horder, ht.entered]
    exact h.order_lt
  · exact htxn
  · exact hcheck
  · exact hordered
  · intro g hg
    rw [horder, ht.entered]
    exact h.held g (mem_others_of_traversal ht (hothers g hg))
  · intro id hid
    rw [ht.refused, if_neg (by simp)] at hid
    obtain ⟨hord, -, hlt, hne⟩ := refused_traversal h ht hid
    exact ⟨horder ▸ hord, hlt, hne⟩
  · intro id hid
    rw [ht.completed, if_pos ⟨rfl, rfl⟩] at hid
    rw [horder]
    rcases List.mem_cons.mp hid with rfl | hid
    · exact hmem
    · exact h.completed id hid

/-- A successful first traversal: the packet comes last in the order, and checks no lock that is
held. -/
theorem serialInv_first (hcov : ∀ o ∈ s.entered, Covers bit o) (h : SerialInv bit regs s)
    (ht : Traversal s s' f others hdr hdr' v) (hv : v.doAccess = true)
    (hundo : hdr.lockInfo.locksUndo = 0) (hr : s.sw.myLock &&& hdr.lockInfo.locksCheck = 0)
    (hskip : hdr'.regSkip = hdr.regSkip) (hreg : hdr'.reg = hdr.reg)
    (hnext : hdr'.nextType = hdr.nextType &&& negStop) (hrest : hdr'.rest = hdr.rest)
    (hpassed : v.doRecirc = true → hdr'.lockInfo.isSecondPass = 1 ∧
      hdr'.lockInfo.locksUndo = hdr'.lockInfo.locksAcquire ∧ hdr'.lockInfo.locksAcquire ≠ 0) :
    SerialInv bit regs s' := by
  obtain ⟨o, ho⟩ := h.flight f (mem_of_traversal ht)
  have hlock := parse_lockInfo ht.parsed
  have hcovers := hcov o (List.mem_of_getElem? ho.entered)
  have hne := (nodup_of_traversal h ht).1
  obtain ⟨hw, hnot⟩ := ho.waiting_of_undo (hlock ▸ hundo)
  have horder : s'.order = s.order ++ [f.id] := by rw [ht.order, if_pos ⟨hv, hundo⟩]
  obtain ⟨new, reg, haccess, hacc, hmark⟩ := access_cases f.id s.sw.reg hdr'
  have haccIf : accessIf v f.id s.sw.reg hdr' =
      (Conflict.replay s.sw.reg new, { hdr' with reg := reg }, new) := by
    rw [accessIf, if_pos hv, haccess]
  have hregs : s'.sw.reg = Conflict.replay s.sw.reg new := by rw [ht.regs, haccIf]
  have hhistory : s'.history = s.history ++ new := by rw [ht.history, haccIf]
  have hparsed := parsed_of_parse ht.parsed
  obtain ⟨hlegal, hreplay, htxn, hcheck, hordered⟩ := history_traversal h ht hregs hhistory hacc
    (horder ▸ List.sublist_append_left ..) (by simp [horder])
    (by
      -- the accesses are to cells of the first pass, and the packet checks the locks of those
      intro a ha o' ho' b hb
      obtain rfl : o = o' := Option.some.inj (ho.entered.symm.trans ho')
      obtain ⟨i, x, hx, hitem⟩ := hacc.item a ha
      obtain ⟨hx, hcell⟩ := hparsed.reg i x (hreg ▸ hx)
      have hfirst := hw.first x (mem_upTo_of_mem_dropWhile hx)
      exact hcovers.check x (List.mem_append_left _ hfirst) a.item (hitem ▸ hcell) b hb)
    (by
      -- the packet is the last of the order, behind everyone who has accessed a cell
      intro a ha b hb _ _
      rw [hacc.txn b hb, horder]
      exact TwoPhase.pair_sublist_concat.mpr (.inr ⟨h.txn_mem a ha, rfl⟩))
  constructor
  · exact lockInv_traversal h.lock ht
  · exact hlegal
  · exact hreplay
  · exact ids_traversal h ht
  · intro g hg
    rcases mem_circulating_traversal ht hg with hg | ⟨hrecirc, rfl⟩
    · exact flight_others h ht hg (by simp [horder, hne g hg])
    · -- the packet goes on to its second pass
      obtain ⟨hsecond, hund, hacq⟩ := hpassed hrecirc
      obtain ⟨hacq', hchk'⟩ := locks_outcome ht.outcome
      rw [haccIf]
      refine ⟨o, by rw [ht.entered]; exact ho.entered, hacq'.trans (hlock ▸ ho.acquire),
        hchk'.trans (hlock ▸ ho.check), .inr ⟨⟨hsecond, hund, hacq, ?_⟩, by simp [horder]⟩⟩
      have hskip' : Header.regSkip { hdr' with reg := reg } = hdr.regSkip := hskip
      obtain ⟨z, hz, hinstrs⟩ := emit_passed hparsed hskip' hmark hnext hrest
      rw [hw.second] at hinstrs
      exact ⟨z, hz, hinstrs⟩
  · rw [horder, ← List.concat_eq_append, List.nodup_concat]
    exact ⟨hnot, h.nodup⟩
  · rw [horder, ht.entered]
    intro id hid
    rcases List.mem_append.mp hid with hid | hid
    · exact h.order_lt id hid
    · rw [List.mem_singleton.mp hid]
      exact (List.getElem?_eq_some_iff.mp ho.entered).1
  · exact htxn
  · exact hcheck
  · exact hordered
  · intro g hg hsecond q o' hsub ho'
    rw [horder] at hsub
    rw [ht.entered] at ho'
    rcases mem_circulating_traversal ht hg with hg | ⟨-, rfl⟩
    · have hgmem := mem_others_of_traversal ht hg
      rcases TwoPhase.pair_sublist_concat.mp hsub with hsub | ⟨-, rfl⟩
      · exact h.held g hgmem hsecond q o' hsub ho'
      · -- the locks of `g` are set, and the packet found none of its locks set
        obtain rfl : o = o' := Option.some.inj (ho.entered.symm.trans ho')
        rw [hlock, ho.check] at hr
        exact disjoint_of_myLock h hgmem hsecond hr
    · -- the packet itself is the last, with no one behind it
      rcases TwoPhase.pair_sublist_concat.mp hsub with hsub | ⟨hmem, -⟩
      · exact absurd (hsub.subset List.mem_cons_self) hnot
      · exact absurd hmem hnot
  · intro id hid
    rw [ht.refused, if_neg (by simp [hv])] at hid
    obtain ⟨hord, hidf, hlt, hne⟩ := refused_traversal h ht hid
    exact ⟨by simp [horder, hord, hidf], hlt, hne⟩
  · intro id hid
    rw [ht.completed] at hid
    rw [horder]
    split_ifs at hid
    · rcases List.mem_cons.mp hid with rfl | hid
      · exact List.mem_append_right _ (List.mem_singleton_self _)
      · exact List.mem_append_left _ (h.completed id hid)
    · exact List.mem_append_left _ (h.completed id hid)

theorem serialInv_traversal (hcov : ∀ o ∈ s.entered, Covers bit o) (h : SerialInv bit regs s)
    (ht : Traversal s s' f others hdr hdr' v) : SerialInv bit regs s' := by
  have hout := ht.outcome
  cases hout with
  | second hundo hpass => exact serialInv_second hcov h ht hundo hpass
  | undo hundo hpass => exact serialInv_noAccess h ht rfl hpass rfl rfl rfl rfl rfl
  | giveUp hundo hpass => exact serialInv_noAccess h ht rfl hpass rfl rfl rfl rfl rfl
  | first hundo hr hacquire =>
    refine serialInv_first hcov h ht rfl hundo hr rfl rfl rfl rfl fun _ => ⟨rfl, ?_, hacquire⟩
    dsimp only
    rw [hr]
    show ~~~(0#32) &&& _ = _
    rw [BitVec.not_zero, BitVec.allOnes_and]
  | only hundo hr hacquire => exact serialInv_first hcov h ht rfl hundo hr rfl rfl rfl rfl nofun
  | fail hundo hr =>
    refine serialInv_noAccess h ht rfl ?_ rfl rfl rfl rfl rfl
    obtain ⟨o, ho⟩ := h.flight f (mem_of_traversal ht)
    rw [parse_lockInfo ht.parsed] at hundo ⊢
    rw [(ho.waiting_of_undo hundo).1.isSecondPass]
    decide

end Traversal

/-- Packets that have entered stay in the record. -/
theorem entered_step (a : Action) (hstep : s.step a = some s') :
    ∀ o ∈ s.entered, o ∈ s'.entered := by
  cases a with
  | enter pkt =>
    simp only [step, enter, Option.ite_none_right_eq_some, Option.some.injEq] at hstep
    obtain ⟨-, rfl⟩ := hstep
    exact fun o ho => List.mem_append_left _ ho
  | traverse i =>
    obtain ⟨f, others, hdr, hdr', v, ht⟩ := traverse_cases hstep
    rw [ht.entered]
    exact fun o ho => ho

theorem serialInv_step (a : Action) (hcov : ∀ o ∈ s.entered, Covers bit o)
    (h : SerialInv bit regs s) (hstep : s.step a = some s') : SerialInv bit regs s' := by
  cases a with
  | enter pkt => exact serialInv_enter h hstep
  | traverse i =>
    obtain ⟨f, others, hdr, hdr', v, ht⟩ := traverse_cases hstep
    exact serialInv_traversal hcov h ht

theorem serialInv_of_run {as : List Action} (hrun : Transition.run step (init regs) as = some s)
    (hcov : ∀ o ∈ s.entered, Covers bit o) : SerialInv bit regs s := by
  have h := Transition.run_invariant (I := fun s => (∀ o ∈ s.entered, Covers bit o) →
    SerialInv bit regs s) (fun s a s' hs hstep hcov => by
      have hcov' : ∀ o ∈ s.entered, Covers bit o := fun o ho => hcov o (entered_step a hstep o ho)
      exact serialInv_step a hcov' (hs hcov') hstep)
    (fun _ => serialInv_init bit regs) hrun
  exact h hcov

/-- **The two passes are serializable.**  Lock bits are assigned to some cells, such that they cover
all packets that entered.  Then the packets that have accessed registers, among them all that were
answered after an access, are in `order`, in the order of their successful first traversals, and

* conflicting accesses of different packets happened in that order;
* if the packets ran one after the other in that order, every access would read the same value, and
  the registers would be the same;
* a packet that was answered without access has made no access, and the registers hold what the
  accesses have made of them. -/
theorem two_pass_serializable {as : List Action} (bit : Cell → Option ℕ)
    (hrun : Transition.run step (init regs) as = some s) (hcov : ∀ o ∈ s.entered, Covers bit o) :
    s.order.Nodup ∧ (∀ a ∈ s.history, a.txn ∈ s.order) ∧
    (∀ id ∈ s.completed.map Prod.fst, id ∈ s.order) ∧
    (∀ a b, [a, b].Sublist s.history → a.txn ≠ b.txn → a.Conflicts b →
      [a.txn, b.txn].Sublist s.order) ∧
    Conflict.Legal regs (Conflict.serial s.history s.order) ∧
    s.sw.reg = Conflict.replay regs (Conflict.serial s.history s.order) ∧
    Conflict.Legal regs s.history ∧ s.sw.reg = Conflict.replay regs s.history ∧
    ∀ id ∈ s.refused.map Prod.fst, ∀ a ∈ s.history, a.txn ≠ id := by
  have h := serialInv_of_run hrun hcov
  obtain ⟨hreplay, hlegal⟩ := h.ordered.replay_legal (σ := regs) h.nodup h.txn_mem
  refine ⟨h.nodup, h.txn_mem, h.completed, h.ordered, hlegal h.legal, ?_, h.legal, h.replay, ?_⟩
  · rw [h.replay, hreplay]
  · intro id hid a ha heq
    exact (h.refused id hid).1 (heq ▸ h.txn_mem a ha)

/-- A packet that reads in array 1, in its only pass. -/
def onePass : Packet where
  dstAddr := 0x222222222222
  srcAddr := 0x111111111111
  lockInfo := ⟨1, 0, 0, 0, 0⟩
  instrs := [⟨0x02, 0x00, 0, 0⟩]
  last := 0x80

/-- The cell of array 1 has a lock bit. -/
def oneBit (cell : Cell) : Option ℕ := if cell = (1, 0) then some 0 else none

/-- The second packet finds the lock set, and succeeds after the second pass of the first. -/
def waitForLock : List Action :=
  [.enter (twoPasses 1), .enter onePass, .traverse 1, .traverse 1, .traverse 1, .traverse 0]

theorem run_waitForLock : ((Transition.run step (init fun _ => 0) waitForLock).map fun s =>
    decide (s.entered = [twoPasses 1, onePass] ∧ s.order = [0, 1] ∧
      s.history = [⟨0, (0, 0), 0, some 5⟩, ⟨0, (1, 0), 0, some 7⟩, ⟨1, (1, 0), 7, none⟩])) =
        some true := by
  decide +kernel

theorem two_pass_serializable_waitForLock : ∃ s,
    Transition.run step (init fun _ => 0) waitForLock = some s ∧ s.order = [0, 1] ∧
      (∀ o ∈ s.entered, Covers oneBit o) ∧
      Conflict.Legal (fun _ => 0) (Conflict.serial s.history s.order) := by
  obtain ⟨s, hrun, hs⟩ := Option.map_eq_some_iff.mp run_waitForLock
  obtain ⟨hentered, horder, -⟩ := of_decide_eq_true hs
  have hcov : ∀ o ∈ s.entered, Covers oneBit o := by
    rw [hentered]
    decide +kernel
  have hserial := two_pass_serializable oneBit hrun hcov
  exact ⟨s, hrun, horder, hcov, hserial.2.2.2.2.1⟩

end State

end P4db.MyP4db
