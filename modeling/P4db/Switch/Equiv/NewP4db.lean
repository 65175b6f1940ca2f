import Mathlib.Data.Nat.Bitwise
import P4db.Switch.NewP4db

/-!
# What the register pipeline computes

The 72 register actions touch different arrays and different data fields, so their sequence acts on
every array on its own (`execReg_foldlM`).  Whatever the instruction fields hold, a packet reads one
cell of every array and overwrites the cells whose instruction asks for it.
-/

namespace P4db.NewP4db

variable {regs : RegFile} {m : RegInstrMap}

/-- An array after its action. -/
def RegInstrMap.applied (m : RegInstrMap) (regs : RegFile) (r : ℕ) : ℕ → BitVec 32 :=
  if (m.i r).getLsbD 7 then Function.update (regs r) (m.index r).toNat (m.d r) else regs r

theorem execReg_eq {r : ℕ} (h : (m.index r).toNat < regSize) :
    execReg (regs, m) r = some (Function.update regs r (m.applied regs r),
      { m with d := Function.update m.d r (regs r (m.index r).toNat) }) := by
  unfold execReg RegInstrMap.applied
  simp only [h, ↓reduceIte]
  split_ifs
  · rfl
  · rw [Function.update_eq_self]

/-- **The register actions in sequence**: each array is changed by its own action only, and each
data field receives the cell the array held before. -/
theorem execReg_foldlM (regs : RegFile) {l : List ℕ} (hnd : l.Nodup)
    (h : ∀ r ∈ l, (m.index r).toNat < regSize) :
    ∃ regs' m', l.foldlM execReg (regs, m) = some (regs', m') ∧
      (∀ r ∈ l, regs' r = m.applied regs r ∧ m'.d r = regs r (m.index r).toNat) ∧
      ∀ r ∉ l, regs' r = regs r ∧ m'.d r = m.d r := by
  induction l generalizing regs m with
  | nil => exact ⟨regs, m, rfl, nofun, fun _ _ => ⟨rfl, rfl⟩⟩
  | cons a l ih =>
    obtain ⟨hal, hnd⟩ := List.nodup_cons.mp hnd
    set regs₁ := Function.update regs a (m.applied regs a) with hregs₁
    set m₁ : RegInstrMap :=
      { m with d := Function.update m.d a (regs a (m.index a).toNat) } with hm₁
    have hlt : ∀ r ∈ l, (m₁.index r).toNat < regSize := fun r hr => h r (List.mem_cons_of_mem _ hr)
    obtain ⟨regs', m', hrun, hmem, hout⟩ := @ih m₁ regs₁ hnd hlt
    refine ⟨regs', m', ?_, ?_, ?_⟩
    · rw [List.foldlM_cons, execReg_eq (h a List.mem_cons_self)]
      exact hrun
    · intro r hr
      rcases List.mem_cons.mp hr with rfl | hr
      · -- the later actions leave this array alone
        obtain ⟨h₁, h₂⟩ := hout r hal
        refine ⟨h₁.trans (Function.update_self _ _ _), h₂.trans (Function.update_self _ _ _)⟩
      · have hne : r ≠ a := fun heq => hal (heq ▸ hr)
        obtain ⟨h₁, h₂⟩ := hmem r hr
        have hregs : regs₁ r = regs r := Function.update_of_ne hne _ _
        have hd : m₁.d r = m.d r := Function.update_of_ne hne _ _
        refine ⟨h₁.trans ?_, h₂.trans (congrFun hregs _)⟩
        show (if (m.i r).getLsbD 7 then Function.update (regs₁ r) (m.index r).toNat (m₁.d r)
          else regs₁ r) = _
        rw [hregs, hd]
        rfl
    · intro r hr
      rw [List.mem_cons, not_or] at hr
      obtain ⟨h₁, h₂⟩ := hout r hr.2
      exact ⟨h₁.trans (Function.update_of_ne hr.1 _ _), h₂.trans (Function.update_of_ne hr.1 _ _)⟩

/-- The index of an action: the offset without its low seven bits, plus the low seven bits of the
instruction. -/
theorem toNat_index (m : RegInstrMap) (r : ℕ) :
    (m.index r).toNat = m.offset.toNat / 2 ^ 7 * 2 ^ 7 + ((m.i r).extractLsb' 0 7).toNat := by
  have hlow : ((m.i r).extractLsb' 0 7).toNat < 2 ^ 7 := BitVec.isLt _
  have hoff := m.offset.isLt
  have hhigh : m.offset.toNat / 2 ^ 7 % 2 ^ 9 = m.offset.toNat / 2 ^ 7 := by omega
  rw [RegInstrMap.index, BitVec.toNat_append, BitVec.toNat_setWidth, BitVec.toNat_ushiftRight,
    Nat.shiftRight_eq_div_pow, hhigh, ← Nat.shiftLeft_add_eq_or_of_lt hlow, Nat.shiftLeft_eq]

end P4db.NewP4db
