import P4db.Switch.Equiv.TwoPass
import P4db.Switch.Equiv.MyP4dbWire
import Mathlib.Data.List.Range

/-!
# Exactly what a traversal does

The instructions of a pass are on different register arrays, without stop bit.  For a packet of
skipped instructions, a pass and a rest that starts with a stop bit this says what a traversal
parses, accesses and emits.

* `parse_of_pass`: the headers.
* `access_eq`: one access for each header, in the order of the arrays, which reads what the
  registers held before.
* `arranged`: the instructions of a pass in the order in which they are accessed and emitted.
* `traverse_blocked`, `traverse_passes`, `traverse_second`: the traversals on bytes.
-/

namespace P4db.MyP4db

variable {r : BitVec 32} {hdr : Header} {x : RegInstr}

/-! ### Passes -/

/-- Instructions of one pass. -/
structure IsPass (xs : List RegInstr) : Prop where
  stop : ∀ x ∈ xs, hasStop x.type = false
  skip : ∀ x ∈ xs, x.type ≠ skip
  reg : ∀ x ∈ xs, x.type.toNat ≤ numRegs
  distinct : (xs.map RegInstr.type).Nodup

/-- The headers that the instructions of a pass are extracted to. -/
def headers (xs : List RegInstr) (i : ℕ) : Option RegInstr := xs.find? fun x => x.type.toNat = i + 1

theorem headers_cons (x : RegInstr) (xs : List RegInstr) (i : ℕ) :
    headers (x :: xs) i = if x.type.toNat = i + 1 then some x else headers xs i := by
  unfold headers
  rw [List.find?_cons]
  by_cases h : x.type.toNat = i + 1 <;> simp [h]

theorem mem_of_headers {xs : List RegInstr} {i : ℕ} (h : headers xs i = some x) :
    x ∈ xs ∧ x.type.toNat = i + 1 :=
  ⟨List.mem_of_find?_eq_some h, by simpa using List.find?_some h⟩

theorem IsPass.tail {xs : List RegInstr} (h : IsPass (x :: xs)) : IsPass xs where
  stop y hy := h.stop y (List.mem_cons_of_mem _ hy)
  skip y hy := h.skip y (List.mem_cons_of_mem _ hy)
  reg y hy := h.reg y (List.mem_cons_of_mem _ hy)
  distinct := (List.nodup_cons.mp h.distinct).2

theorem IsPass.pos {xs : List RegInstr} (h : IsPass xs) (hx : x ∈ xs) : 0 < x.type.toNat := by
  rw [Nat.pos_iff_ne_zero]
  intro hzero
  exact h.skip x hx (BitVec.eq_of_toNat_eq hzero)

theorem hasStop_eq_false {type : BitVec 8} (h : type.toNat < 128) : hasStop type = false := by
  revert type
  decide

theorem isPass_of_types {xs : List RegInstr} (hpos : ∀ x ∈ xs, 0 < x.type.toNat)
    (hle : ∀ x ∈ xs, x.type.toNat ≤ numRegs) (hdistinct : (xs.map RegInstr.type).Nodup) :
    IsPass xs where
  stop x hx := by
    have hlt := hle x hx
    unfold numRegs at hlt
    exact hasStop_eq_false (by omega)
  skip x hx heq := by
    have hlt := hpos x hx
    rw [heq] at hlt
    exact lt_irrefl 0 hlt
  reg := hle
  distinct := hdistinct

/-- The header of an instruction. -/
theorem IsPass.headers_of_mem {xs : List RegInstr} (h : IsPass xs) (hx : x ∈ xs) :
    headers xs (x.type.toNat - 1) = some x := by
  have hpos := h.pos hx
  induction xs with
  | nil => cases hx
  | cons y xs ih =>
    rw [headers_cons]
    rcases List.mem_cons.mp hx with rfl | hx
    · exact if_pos (by omega)
    · have hne : y.type.toNat ≠ x.type.toNat - 1 + 1 := by
        intro heq
        have htype : y.type = x.type := BitVec.eq_of_toNat_eq (by omega)
        exact (List.nodup_cons.mp h.distinct).1 (htype ▸ List.mem_map_of_mem hx)
      rw [if_neg hne]
      exact ih h.tail hx

/-! ### The parser -/

/-- The type byte behind a pass. -/
def nextOf (last : BitVec 8) (rest : List RegInstr) : BitVec 8 :=
  (rest.head?.map RegInstr.type).getD last

theorem parseRegs_of_pass {last : BitVec 8} {xs rest : List RegInstr} (h : IsPass xs)
    (hstop : hasStop (nextOf last rest) = true) (reg : ℕ → Option RegInstr) :
    parseRegs last (xs ++ rest) reg =
      some (fun i => (headers xs i).or (reg i), nextOf last rest, rest) := by
  induction xs generalizing reg with
  | nil =>
    cases rest with
    | nil => exact if_pos hstop
    | cons y rest => exact if_pos hstop
  | cons x xs ih =>
    have hx := h.stop x List.mem_cons_self
    have htype := And.intro (h.skip x List.mem_cons_self) (h.reg x List.mem_cons_self)
    rw [List.cons_append, parseRegs, hx, if_neg Bool.false_ne_true, if_pos htype, ih h.tail]
    congr 2
    funext i
    have hpos := h.pos List.mem_cons_self
    rw [headers_cons]
    by_cases hi : x.type.toNat = i + 1
    · -- the other instructions are on other arrays
      have hnone : headers xs i = none := by
        cases hy : headers xs i with
        | none => rfl
        | some y =>
          obtain ⟨hmem, hreg⟩ := mem_of_headers hy
          have htypes : x.type = y.type := BitVec.eq_of_toNat_eq (by omega)
          exact absurd (htypes ▸ List.mem_map_of_mem hmem) (List.nodup_cons.mp h.distinct).1
      have hidx : i = x.type.toNat - 1 := by omega
      rw [if_pos hi, hnone, hidx, Function.update_self]
      rfl
    · rw [if_neg hi, Function.update_of_ne (by omega)]

/-- **The parser.** -/
theorem parse_of_pass {l : LockInfo} {dst src : BitVec 48} {last : BitVec 8}
    {zs xs rest : List RegInstr} (hz : ∀ x ∈ zs, x.type = skip) (hlen : zs.length ≤ maxSkips)
    (h : IsPass xs) (hstop : hasStop (nextOf last rest) = true) :
    parse ⟨dst, src, l, zs ++ (xs ++ rest), last⟩ =
      some ⟨dst, src, l, zs, headers xs, nextOf last rest, rest, last⟩ := by
  have hhead : ∀ x ∈ (xs ++ rest).head?, x.type ≠ skip := by
    intro x hx
    cases xs with
    | nil =>
      rw [List.nil_append] at hx
      have hnext : nextOf last rest = x.type := by
        unfold nextOf
        rw [hx]
        rfl
      rw [hnext] at hstop
      exact Wire.ne_skip_of_hasStop hstop
    | cons y xs =>
      obtain rfl := Option.some.inj hx
      exact h.skip y List.mem_cons_self
  have htake : ((xs ++ rest).takeWhile fun x => decide (x.type = skip)) = [] := by
    cases hl : xs ++ rest with
    | nil => rfl
    | cons y l' => exact List.takeWhile_cons_of_neg (by simpa using hhead y (by rw [hl]; rfl))
  have hdrop : ((xs ++ rest).dropWhile fun x => decide (x.type = skip)) = xs ++ rest := by
    cases hl : xs ++ rest with
    | nil => rfl
    | cons y l' => exact List.dropWhile_cons_of_neg (by simpa using hhead y (by rw [hl]; rfl))
  have hz' : ∀ x ∈ zs, decide (x.type = skip) = true := fun x hx => by simpa using hz x hx
  unfold parse
  simp only [List.takeWhile_append_of_pos hz', List.dropWhile_append_of_pos hz', htake, hdrop,
    List.append_nil, if_pos hlen, parseRegs_of_pass h hstop, Option.map_some, Option.or_none]

/-! ### The accesses of a pass -/

section Access
variable (id : ℕ) (regs : Cell → BitVec 32) (reg : ℕ → Option RegInstr)

/-- The access of a header to array `i`. -/
def accessAt (i : ℕ) (x : RegInstr) : Access :=
  ⟨id, (i, x.idx), regs (i, x.idx), if x.op = write then some x.data else none⟩

/-- A header after its access to array `i`. -/
def doneAt (i : ℕ) (x : RegInstr) : RegInstr := { x with data := regs (i, x.idx), type := skip }

/-- The accesses to the first `n` arrays. -/
def accessesTo (n : ℕ) : List Access :=
  (List.range n).filterMap fun i => (reg i).map (accessAt id regs i)

theorem accessesTo_succ (n : ℕ) :
    accessesTo id regs reg (n + 1) = accessesTo id regs reg n ++
      ((reg n).map (accessAt id regs n)).toList := by
  unfold accessesTo
  rw [List.range_succ, List.filterMap_append]
  cases hreg : reg n <;> simp [hreg]

theorem lt_of_mem_accessesTo {n : ℕ} {a : Access} (h : a ∈ accessesTo id regs reg n) :
    a.item.1 < n := by
  obtain ⟨i, hi, h⟩ := List.mem_filterMap.mp h
  obtain ⟨x, -, rfl⟩ := Option.map_eq_some_iff.mp h
  exact List.mem_range.mp hi

/-- An array is not accessed before its turn. -/
theorem replay_accessesTo_of_le {n i : ℕ} (h : n ≤ i) (idx : BitVec 16) :
    Conflict.replay regs (accessesTo id regs reg n) (i, idx) = regs (i, idx) := by
  apply Conflict.replay_of_forall_ne
  intro a ha hitem
  have hlt := lt_of_mem_accessesTo id regs reg ha
  rw [hitem] at hlt
  omega

theorem foldl_range_execReg (n : ℕ) : (List.range n).foldl (execReg id) (regs, reg, []) =
    (Conflict.replay regs (accessesTo id regs reg n),
      fun i => if i < n then (reg i).map (doneAt regs i) else reg i, accessesTo id regs reg n) := by
  induction n with
  | zero => simp [accessesTo, Conflict.replay]
  | succ n ih =>
    rw [List.range_succ, List.foldl_append, ih, List.foldl_cons, List.foldl_nil, accessesTo_succ]
    cases hreg : reg n with
    | none =>
      simp only [execReg, hreg, lt_irrefl, if_false, Option.map_none, Option.toList_none,
        List.append_nil]
      congr 2
      funext i
      rcases eq_or_ne i n with rfl | hi
      · simp [hreg]
      · simp only [show i < n + 1 ↔ i < n by omega]
    | some x =>
      simp only [execReg, hreg, lt_irrefl, if_false, Option.map_some, Option.toList_some,
        replay_accessesTo_of_le id regs reg le_rfl, Conflict.replay_append, accessAt,
          replay_singleton]
      congr 2
      funext i
      rcases eq_or_ne i n with rfl | hi
      · simp [hreg, doneAt]
      · rw [Function.update_of_ne hi]
        simp only [show i < n + 1 ↔ i < n by omega]

/-- **The accesses of a pass.** -/
theorem access_eq (hdr : Header) : access id regs hdr =
    (Conflict.replay regs (accessesTo id regs hdr.reg numRegs),
      { hdr with
        reg := fun i => if i < numRegs then (hdr.reg i).map (doneAt regs i) else hdr.reg i },
      accessesTo id regs hdr.reg numRegs) := by
  unfold access
  rw [foldl_range_execReg]

end Access

/-! ### The order of the arrays -/

/-- The instructions of a pass in the order of their arrays, in which they are accessed and
emitted. -/
def arranged (xs : List RegInstr) : List RegInstr := (List.range numRegs).filterMap (headers xs)

theorem mem_arranged {xs : List RegInstr} (h : IsPass xs) : x ∈ arranged xs ↔ x ∈ xs := by
  unfold arranged
  rw [List.mem_filterMap]
  constructor
  · rintro ⟨i, -, hx⟩
    exact (mem_of_headers hx).1
  · intro hx
    have hpos := h.pos hx
    have hle := h.reg x hx
    exact ⟨x.type.toNat - 1, List.mem_range.mpr (by omega), h.headers_of_mem hx⟩

theorem pairwise_arranged (xs : List RegInstr) :
    (arranged xs).Pairwise fun x y => x.type.toNat < y.type.toNat := by
  apply List.Pairwise.filterMap _ _ List.pairwise_lt_range
  intro i j hij x hx y hy
  rw [(mem_of_headers hx).2, (mem_of_headers hy).2]
  omega

theorem arranged_perm {xs : List RegInstr} (h : IsPass xs) : (arranged xs).Perm xs := by
  have hnodup : (arranged xs).Nodup := by
    apply (pairwise_arranged xs).imp
    rintro x y hlt rfl
    exact lt_irrefl _ hlt
  rw [List.perm_ext_iff_of_nodup hnodup h.distinct.of_map]
  exact fun x => mem_arranged h

/-- A pass that is in order already. -/
theorem arranged_eq {xs : List RegInstr} (h : IsPass xs)
    (hsorted : xs.Pairwise fun x y => x.type.toNat < y.type.toNat) : arranged xs = xs := by
  apply (arranged_perm h).eq_of_pairwise _ (pairwise_arranged xs) hsorted
  intro x y _ _ hxy hyx
  omega

/-- The accesses of a pass. -/
theorem accessesTo_headers (id : ℕ) (regs : Cell → BitVec 32) (xs : List RegInstr) :
    accessesTo id regs (headers xs) numRegs =
      (arranged xs).map fun x => accessAt id regs (x.type.toNat - 1) x := by
  unfold accessesTo arranged
  rw [List.map_filterMap]
  congr 1
  funext i
  cases hx : headers xs i with
  | none => rfl
  | some x => simp [(mem_of_headers hx).2]

/-- The order of the accesses makes no difference. -/
theorem replay_arranged {xs : List RegInstr} (h : IsPass xs) (id : ℕ) (regs : Cell → BitVec 32) :
    Conflict.replay regs ((arranged xs).map fun x => accessAt id regs (x.type.toNat - 1) x) =
      Conflict.replay regs (xs.map fun x => accessAt id regs (x.type.toNat - 1) x) := by
  apply Conflict.replay_perm ((arranged_perm h).map _)
  rw [List.map_map]
  apply List.pairwise_map.mpr
  apply (pairwise_arranged xs).imp_of_mem
  intro x y hx _ hlt heq
  have hpos := h.pos ((mem_arranged h).mp hx)
  have hreg : x.type.toNat - 1 = y.type.toNat - 1 := (Prod.mk.inj heq).1
  omega

/-! ### Packets -/

/-- Skipped instructions, a pass and a rest. -/
def packetOf (l : LockInfo) (zs xs rest : List RegInstr) (last : BitVec 8) : Packet :=
  ⟨0, 0, l, zs ++ (xs ++ rest), last⟩

/-- The instructions of a packet in an array, up to one with nothing but a type.  What stands behind
it is not read. -/
theorem bytes_packetOf (l : LockInfo) (xs rest : List RegInstr) (x : RegInstr)
    (l' : List RegInstr) :
    l.bytes ++ (xs ++ rest ++ x :: l').flatMap RegInstr.bytes =
      (packetOf l [] xs rest x.type).bytes ++ (x.body ++ l'.flatMap RegInstr.bytes) := by
  unfold Packet.bytes packetOf
  simp [RegInstr.bytes]

/-- Its headers. -/
def headerOf (l : LockInfo) (zs xs rest : List RegInstr) (last : BitVec 8) : Header :=
  ⟨0, 0, l, zs, headers xs, nextOf last rest, rest, last⟩

/-- The packet that the deparser makes when the pass has not been let in. -/
theorem emit_blocked (l l' : LockInfo) (zs xs rest : List RegInstr) (last : BitVec 8) :
    Header.emit { headerOf l zs xs rest last with lockInfo := l' } =
      packetOf l' zs (arranged xs) rest last := by
  unfold Header.emit packetOf headerOf
  cases rest with
  | nil =>
    simp only [List.append_assoc]
    rfl
  | cons x rest =>
    simp only [List.append_assoc, if_neg (List.cons_ne_nil x rest)]
    rfl

/-- The instructions of a pass when it is done. -/
def skipped (regs : Cell → BitVec 32) (xs : List RegInstr) : List RegInstr :=
  (arranged xs).map fun x => doneAt regs (x.type.toNat - 1) x

theorem type_of_mem_skipped {regs : Cell → BitVec 32} {xs : List RegInstr}
    (h : x ∈ skipped regs xs) : x.type = skip := by
  obtain ⟨y, -, rfl⟩ := List.mem_map.mp h
  rfl

theorem length_skipped {xs : List RegInstr} (h : IsPass xs) (regs : Cell → BitVec 32) :
    (skipped regs xs).length = xs.length := by
  unfold skipped
  rw [List.length_map, (arranged_perm h).length_eq]

/-- The packet that the deparser makes after the first of two passes. -/
theorem emit_first (regs : Cell → BitVec 32) (l l' : LockInfo) (zs xs : List RegInstr)
    (y : RegInstr) (rest : List RegInstr) (last : BitVec 8) :
    Header.emit { headerOf l zs xs (y :: rest) last with
      lockInfo := l'
      nextType := y.type &&& negStop
      reg := fun i => if i < numRegs then (headers xs i).map (doneAt regs i) else headers xs i } =
      packetOf l' (zs ++ skipped regs xs) (clearStop (y :: rest)) [] last := by
  have hdone : ((List.range numRegs).filterMap fun i =>
      if i < numRegs then (headers xs i).map (doneAt regs i) else headers xs i) =
        skipped regs xs := by
    unfold skipped arranged
    rw [List.map_filterMap]
    apply List.filterMap_congr
    intro i hi
    rw [if_pos (List.mem_range.mp hi)]
    cases hx : headers xs i with
    | none => rfl
    | some x => simp [(mem_of_headers hx).2]
  unfold Header.emit packetOf headerOf clearStop
  dsimp only
  rw [hdone, if_neg (List.cons_ne_nil y rest), List.append_nil]

/-! ### Stop bits -/

/-- `InstrType_t.STOP`. -/
def stop : BitVec 8 := 0x80

/-- The first instruction gets the stop bit. -/
def markStop : List RegInstr → List RegInstr
  | [] => []
  | x :: l => { x with type := stop ||| x.type } :: l

theorem and_negStop_or_stop {type : BitVec 8} (h : hasStop type = false) :
    (stop ||| type) &&& negStop = type := by
  revert type
  decide

theorem hasStop_stop_or (type : BitVec 8) : hasStop (stop ||| type) = true := by
  revert type
  decide

theorem clearStop_markStop {ys : List RegInstr} (h : IsPass ys) : clearStop (markStop ys) = ys := by
  cases ys with
  | nil => rfl
  | cons y ys =>
    show { y with type := (stop ||| y.type) &&& negStop } :: ys = y :: ys
    rw [and_negStop_or_stop (h.stop y List.mem_cons_self)]

theorem hasStop_nextOf_markStop (ys : List RegInstr) :
    hasStop (nextOf stop (markStop ys)) = true := by
  cases ys with
  | nil => rfl
  | cons y ys => exact hasStop_stop_or y.type

/-! ### Traversals -/

theorem decideLocks_only (hundo : hdr.lockInfo.locksUndo = 0) (hr : r = 0)
    (hacquire : hdr.lockInfo.locksAcquire = 0) : decideLocks r hdr = (⟨true, false⟩, { hdr with
      nextType := hdr.nextType &&& negStop
      lockInfo := { hdr.lockInfo with locksUndo := ~~~r &&& hdr.lockInfo.locksAcquire } }) := by
  unfold decideLocks
  dsimp only
  rw [if_neg (not_not.mpr hundo), if_pos hr, if_neg (not_not.mpr hacquire)]

theorem decideLocks_first (hundo : hdr.lockInfo.locksUndo = 0) (hr : r = 0)
    (hacquire : hdr.lockInfo.locksAcquire ≠ 0) : decideLocks r hdr = (⟨true, true⟩, { hdr with
      nextType := hdr.nextType &&& negStop
      lockInfo := { hdr.lockInfo with
        locksUndo := ~~~r &&& hdr.lockInfo.locksAcquire, isSecondPass := 1 } }) := by
  unfold decideLocks
  dsimp only
  rw [if_neg (not_not.mpr hundo), if_pos hr, if_pos hacquire]

theorem decideLocks_second (hundo : hdr.lockInfo.locksUndo ≠ 0)
    (hpass : hdr.lockInfo.isSecondPass = 1) : decideLocks r hdr = (⟨true, false⟩, hdr) := by
  unfold decideLocks
  dsimp only
  rw [if_pos hundo, if_pos hpass]

namespace Wire

variable {l : LockInfo} {zs xs rest : List RegInstr} {last : Byte}

/-- **A traversal.** -/
theorem traverse_packetOf (hz : ∀ x ∈ zs, x.type = skip) (hlen : zs.length ≤ maxSkips)
    (h : IsPass xs) (hstop : hasStop (nextOf last rest) = true) (hlast : hasStop last = true)
    (tail : List Byte) (sw : Switch) (id : ℕ) :
    traverse sw id ((packetOf l zs xs rest last).bytes ++ tail) =
      some ⟨(ingress sw id (headerOf l zs xs rest last)).sw,
        (ingress sw id (headerOf l zs xs rest last)).hdr.emit.bytes ++ tail,
        (ingress sw id (headerOf l zs xs rest last)).verdict,
        (ingress sw id (headerOf l zs xs rest last)).log⟩ := by
  have hparse : MyP4db.parse (packetOf l zs xs rest last) = some (headerOf l zs xs rest last) :=
    parse_of_pass hz hlen h hstop
  rw [traverse_bytes (show hasStop (packetOf l zs xs rest last).last = true from hlast), hparse]
  rfl

/-- A traversal that makes exactly the accesses of a pass. -/
structure Executes (id : ℕ) (xs : List RegInstr) (sw : Switch) (res : Result) : Prop where
  doAccess : res.verdict.doAccess = true
  log : res.log = (arranged xs).map fun x => accessAt id sw.reg (x.type.toNat - 1) x
  regs : res.sw.reg = Conflict.replay sw.reg res.log

/-- A traversal that makes none. -/
structure Fails (sw : Switch) (res : Result) : Prop where
  doAccess : res.verdict.doAccess = false
  log : res.log = []
  regs : res.sw.reg = sw.reg

section Traversals
variable (hz : ∀ x ∈ zs, x.type = skip) (hlen : zs.length ≤ maxSkips) (h : IsPass xs)
  (hlast : hasStop last = true) (tail : List Byte) (sw : Switch) (id : ℕ)
include hz hlen h hlast

/-- A packet that is not let in keeps its instructions. -/
theorem traverse_blocked (hstop : hasStop (nextOf last rest) = true) (hpass : l.isSecondPass ≠ 1)
    (hblocked : l.locksUndo ≠ 0 ∨ sw.myLock &&& l.locksCheck ≠ 0) :
    ∃ res l', traverse sw id ((packetOf l zs xs rest last).bytes ++ tail) = some res ∧
      Fails sw res ∧
      res.pkt = (packetOf l' zs (arranged xs) rest last).bytes ++ tail ∧
      l'.locksAcquire = l.locksAcquire ∧ l'.isSecondPass = l.isSecondPass := by
  -- neither the headers nor the registers are touched
  have hfails : ∀ v l', decideLocks (sw.myLock &&& l.locksCheck) (headerOf l zs xs rest last) =
      (v, { headerOf l zs xs rest last with lockInfo := l' }) → v.doAccess = false →
      ∃ res, traverse sw id ((packetOf l zs xs rest last).bytes ++ tail) = some res ∧ Fails sw res ∧
        res.pkt = (packetOf l' zs (arranged xs) rest last).bytes ++ tail := by
    intro v l' hdec hv
    have hacc : accessIf v id sw.reg { headerOf l zs xs rest last with lockInfo := l' } =
        (sw.reg, { headerOf l zs xs rest last with lockInfo := l' }, []) := by
      unfold accessIf
      rw [hv]
      rfl
    refine ⟨_, traverse_packetOf hz hlen h hstop hlast tail sw id, ?_⟩
    rw [ingress_eq sw id hdec, hacc]
    exact ⟨⟨hv, rfl, rfl⟩, by rw [emit_blocked]⟩
  obtain ⟨⟨v, hdr'⟩, hdec⟩ :
    ∃ d, decideLocks (sw.myLock &&& l.locksCheck) (headerOf l zs xs rest last) = d := ⟨_, rfl⟩
  have hout := outcome_decideLocks (sw.myLock &&& l.locksCheck) (headerOf l zs xs rest last)
  rw [hdec] at hout
  cases hout with
  | second hundo hsecond => exact absurd hsecond hpass
  | undo hundo _ =>
    obtain ⟨res, hres, hfail, hpkt⟩ := hfails _ _ hdec rfl
    exact ⟨res, _, hres, hfail, hpkt, rfl, rfl⟩
  | giveUp hundo _ =>
    obtain ⟨res, hres, hfail, hpkt⟩ := hfails _ l hdec rfl
    exact ⟨res, l, hres, hfail, hpkt, rfl, rfl⟩
  | first hundo hr _ => exact absurd hr (hblocked.resolve_left fun hc => hc hundo)
  | only hundo hr _ => exact absurd hr (hblocked.resolve_left fun hc => hc hundo)
  | fail hundo hr =>
    obtain ⟨res, hres, hfail, hpkt⟩ := hfails _ _ hdec rfl
    exact ⟨res, _, hres, hfail, hpkt, rfl, rfl⟩

/-- A packet with one pass that finds its locks free. -/
theorem traverse_only (hstop : hasStop (nextOf last rest) = true) (hundo : l.locksUndo = 0)
    (hfree : sw.myLock &&& l.locksCheck = 0) (hacquire : l.locksAcquire = 0) :
    ∃ res, traverse sw id ((packetOf l zs xs rest last).bytes ++ tail) = some res ∧
      Executes id xs sw res ∧
      res.verdict.doRecirc = false := by
  have hdec : decideLocks (sw.myLock &&& l.locksCheck) (headerOf l zs xs rest last) = _ :=
    decideLocks_only hundo hfree hacquire
  refine ⟨_, traverse_packetOf hz hlen h hstop hlast tail sw id, ?_⟩
  rw [ingress_eq sw id hdec]
  unfold accessIf
  simp only [if_true, access_eq, headerOf, accessesTo_headers]
  exact ⟨⟨rfl, rfl, rfl⟩, trivial⟩

/-- A packet with two passes that finds its locks free: the instructions of the first pass are
skipped in the second. -/
theorem traverse_first {y : RegInstr} (hstop : hasStop y.type = true) (hundo : l.locksUndo = 0)
    (hfree : sw.myLock &&& l.locksCheck = 0) (hacquire : l.locksAcquire ≠ 0) :
    ∃ res l', traverse sw id ((packetOf l zs xs (y :: rest) last).bytes ++ tail) = some res ∧
      Executes id xs sw res ∧ res.verdict.doRecirc = true ∧
      res.pkt = (packetOf l' (zs ++ skipped sw.reg xs) (clearStop (y :: rest)) [] last).bytes ++
        tail ∧
      l'.locksUndo ≠ 0 ∧ l'.isSecondPass = 1 := by
  set l' : LockInfo :=
    { l with locksUndo := ~~~(sw.myLock &&& l.locksCheck) &&& l.locksAcquire, isSecondPass := 1 }
    with hl'
  have hdec : decideLocks (sw.myLock &&& l.locksCheck) (headerOf l zs xs (y :: rest) last) =
      (⟨true, true⟩, { headerOf l zs xs (y :: rest) last with
        nextType := y.type &&& negStop, lockInfo := l' }) :=
    decideLocks_first hundo hfree hacquire
  have hundo' : l'.locksUndo = l.locksAcquire := by
    show ~~~(sw.myLock &&& l.locksCheck) &&& l.locksAcquire = l.locksAcquire
    rw [hfree]
    exact BitVec.allOnes_and
  have hnext : hasStop (nextOf last (y :: rest)) = true := hstop
  refine ⟨_, l', traverse_packetOf hz hlen h hnext hlast tail sw id, ?_⟩
  rw [ingress_eq sw id hdec, ← emit_first sw.reg l l']
  unfold accessIf
  simp only [if_true, access_eq]
  exact ⟨⟨rfl, accessesTo_headers id sw.reg xs, rfl⟩, trivial, rfl, hundo' ▸ hacquire, rfl⟩

/-- The second pass. -/
theorem traverse_second (hstop : hasStop (nextOf last rest) = true) (hundo : l.locksUndo ≠ 0)
    (hpass : l.isSecondPass = 1) :
    ∃ res, traverse sw id ((packetOf l zs xs rest last).bytes ++ tail) = some res ∧
      Executes id xs sw res ∧
      res.verdict.doRecirc = false := by
  have hdec : decideLocks (sw.myLock &&& l.locksCheck) (headerOf l zs xs rest last) = _ :=
    decideLocks_second hundo hpass
  refine ⟨_, traverse_packetOf hz hlen h hstop hlast tail sw id, ?_⟩
  rw [ingress_eq sw id hdec]
  unfold accessIf
  simp only [if_true, access_eq, headerOf, accessesTo_headers]
  exact ⟨⟨rfl, rfl, rfl⟩, trivial⟩

end Traversals

/-! ### Runs -/

theorem travel_cons {id : ℕ} {sw : Switch} {pkt : List Byte} {res : Result}
    (h : traverse sw id pkt = some res) (sws : List Switch) : travel id (sw :: sws) pkt =
      if res.verdict.doRecirc then (travel id sws res.pkt).map fun rest => (sw, res) :: rest
      else some [(sw, res)] := by
  rw [travel, h]
  dsimp only [Option.bind_eq_bind, Option.bind_some]
  split_ifs
  · cases travel id sws res.pkt <;> rfl
  · rfl

theorem execute_succ {id : ℕ} {sw : Switch} {pkt : List Byte} {res : Result}
    (h : traverse sw id pkt = some res) (n : ℕ) : execute id (n + 1) sw pkt =
      if res.verdict.doRecirc then execute id n res.sw res.pkt else some res.sw := by
  rw [execute, h]
  rfl

/-- The passes of a packet that wants the locks `acquire`. -/
def passesOf (acquire : BitVec 32) (xs rest : List RegInstr) : List (List RegInstr) :=
  if acquire = 0 then [xs] else [xs, clearStop rest]

/-- The traversals of a packet: those that fail, and those that execute its passes one after the
other.  Once the first pass is done the others follow, unless the list of traversals ends. -/
structure Run (id : ℕ) (sws : List Switch) (passes : List (List RegInstr))
    (failed done : List (Switch × Result)) : Prop where
  fails : ∀ r ∈ failed, Fails r.1 r.2
  executes : ∃ ps, ps <+: passes ∧ List.Forall₂ (fun xs r => Executes id xs r.1 r.2) ps done ∧
    (ps = [] ∨ ps = passes ∨ failed.length + done.length = sws.length)

/-- **The run of a packet.** -/
theorem run_travel (h : IsPass xs) (hsorted : arranged xs = xs) (hlen : xs.length ≤ maxSkips)
    (hstop : hasStop (nextOf last rest) = true) (hlast : hasStop last = true)
    (hsecond : l.locksAcquire ≠ 0 → rest ≠ [] ∧ IsPass (clearStop rest))
    (hpass : l.isSecondPass ≠ 1) (tail : List Byte) (id : ℕ) (sws : List Switch) :
    ∃ failed done, travel id sws ((packetOf l [] xs rest last).bytes ++ tail) =
      some (failed ++ done) ∧
      Run id sws (passesOf l.locksAcquire xs rest) failed done ∧
      (l.locksUndo = 0 → (∀ sw ∈ sws.head?, sw.myLock &&& l.locksCheck = 0) → failed = []) := by
  have hnil : ∀ x ∈ ([] : List RegInstr), x.type = skip := nofun
  have hzero : ([] : List RegInstr).length ≤ maxSkips := Nat.zero_le _
  induction sws generalizing l with
  | nil => exact ⟨[], [], rfl, ⟨nofun, [], List.nil_prefix, .nil, .inl rfl⟩, fun _ _ => rfl⟩
  | cons sw sws ih =>
    by_cases hblocked : l.locksUndo ≠ 0 ∨ sw.myLock &&& l.locksCheck ≠ 0
    · obtain ⟨res, l', hres, hfails, hpkt, hacquire, hsame⟩ :=
        traverse_blocked hnil hzero h hlast tail sw id hstop hpass hblocked
      have hfree : l.locksUndo = 0 → ¬∀ sw' ∈ (sw :: sws).head?, sw'.myLock &&& l.locksCheck = 0 :=
        fun hundo hall => hblocked.elim (fun hc => hc hundo) fun hc => hc (hall sw rfl)
      rw [hsorted] at hpkt
      rw [travel_cons hres]
      by_cases hrecirc : res.verdict.doRecirc = true
      · obtain ⟨failed, done, htravel, hrun, -⟩ := ih (hacquire ▸ hsecond) (hsame ▸ hpass)
        obtain ⟨ps, hprefix, hdone, hall⟩ := hrun.executes
        rw [hacquire] at hprefix hall
        refine ⟨(sw, res) :: failed, done, ?_, ⟨?_, ps, hprefix, hdone, ?_⟩,
          fun hundo hc => absurd hc (hfree hundo)⟩
        · rw [if_pos hrecirc, hpkt, htravel]
          rfl
        · exact List.forall_mem_cons.mpr ⟨hfails, hrun.fails⟩
        · refine hall.imp_right fun hc => hc.imp_right fun hended => ?_
          simp only [List.length_cons]
          omega
      · refine ⟨[(sw, res)], [], ?_, ⟨?_, [], List.nil_prefix, .nil, .inl rfl⟩,
          fun hundo hc => absurd hc (hfree hundo)⟩
        · rw [if_neg hrecirc]
          rfl
        · exact List.forall_mem_singleton.mpr hfails
    · obtain ⟨hundo, hfree⟩ : l.locksUndo = 0 ∧ sw.myLock &&& l.locksCheck = 0 := by
        simpa using hblocked
      by_cases hacquire : l.locksAcquire = 0
      · obtain ⟨res, hres, hexec, hrecirc⟩ :=
          traverse_only hnil hzero h hlast tail sw id hstop hundo hfree hacquire
        have hpasses : passesOf l.locksAcquire xs rest = [xs] := if_pos hacquire
        refine ⟨[], [(sw, res)], ?_, ⟨nofun, [xs], ?_, .cons hexec .nil, .inr (.inl hpasses.symm)⟩,
          fun _ _ => rfl⟩
        · have hno : ¬res.verdict.doRecirc = true := by
            rw [hrecirc]
            exact Bool.false_ne_true
          rw [travel_cons hres, if_neg hno, List.nil_append]
        · exact hpasses ▸ List.prefix_refl [xs]
      · have hpasses : passesOf l.locksAcquire xs rest = [xs, clearStop rest] := if_neg hacquire
        obtain ⟨hne, hpass₂⟩ := hsecond hacquire
        obtain ⟨y, rest, rfl⟩ := List.exists_cons_of_ne_nil hne
        obtain ⟨res, l', hres, hexec, hrecirc, hpkt, hundo', hsecond'⟩ :=
          traverse_first hnil hzero h hlast tail sw id hstop hundo hfree hacquire
        rw [hpasses, travel_cons hres, if_pos hrecirc]
        cases sws with
        | nil =>
          refine ⟨[], [(sw, res)], rfl, ⟨nofun, [xs], ?_, .cons hexec .nil, .inr (.inr rfl)⟩,
            fun _ _ => rfl⟩
          exact List.prefix_append [xs] _
        | cons sw' sws =>
          have hskipped : (skipped sw.reg xs).length ≤ maxSkips := by rwa [length_skipped h]
          have hnext : hasStop (nextOf last []) = true := hlast
          obtain ⟨res', hres', hexec', hrecirc'⟩ :=
            traverse_second (fun x hx => type_of_mem_skipped hx) hskipped
            hpass₂ hlast tail sw' id hnext hundo' hsecond'
          refine ⟨[], [(sw, res), (sw', res')], ?_,
            ⟨nofun, _, List.prefix_refl _, .cons hexec (.cons hexec' .nil), .inr (.inl rfl)⟩,
            fun _ _ => rfl⟩
          rw [hpkt, List.nil_append, travel_cons hres', hrecirc']
          rfl

end Wire

end P4db.MyP4db
