import Mathlib.Data.List.Basic
import Mathlib.Tactic.Common

/-!
# Programs with barriers

Several parties run programs that consist of actions and barriers.  A trace lists what has happened
so far, each moment with the party it belongs to; a barrier takes two moments, one to enter and one
to leave.  The trace is safe when nobody has left more barriers than anybody has entered.

* `Run.done_of_left`: if a party has left more barriers than another enters before one of its
  actions, the other has performed that action.  So barriers order actions across parties.
-/

namespace P4db.Rounds

/-- What a party does at one moment. -/
inductive Mark (α : Type*)
  | enter
  | leave
  | act (a : α)
  deriving DecidableEq, Repr

/-- Whether a barrier is entered. -/
def Mark.isEnter {α : Type*} : Mark α → Bool
  | .enter => true
  | _ => false

/-- Whether a barrier is left. -/
def Mark.isLeave {α : Type*} : Mark α → Bool
  | .leave => true
  | _ => false

variable {ι α : Type*}

/-- The number of barriers entered. -/
def entered (l : List (Mark α)) : ℕ := l.countP Mark.isEnter

/-- The number of barriers left. -/
def left (l : List (Mark α)) : ℕ := l.countP Mark.isLeave

variable [DecidableEq ι]

/-- What one party has done. -/
def own (i : ι) (tr : List (ι × Mark α)) : List (Mark α) :=
  (tr.filter fun e => e.1 = i).map Prod.snd

/-- A safe trace of programs: every party is somewhere in its program, and nobody has left more
barriers than anybody has entered. -/
structure Run (prog : ι → List (Mark α)) (tr : List (ι × Mark α)) : Prop where
  follows : ∀ i, own i tr <+: prog i
  safe : ∀ i j, left (own i tr) ≤ entered (own j tr)

theorem own_append (i : ι) (tr tr' : List (ι × Mark α)) :
    own i (tr ++ tr') = own i tr ++ own i tr' := by
  simp [own]

theorem own_cons (i : ι) (e : ι × Mark α) (tr : List (ι × Mark α)) :
    own i (e :: tr) = if e.1 = i then e.2 :: own i tr else own i tr := by
  unfold own
  by_cases h : e.1 = i <;> simp [h]

theorem entered_append (l l' : List (Mark α)) : entered (l ++ l') = entered l + entered l' :=
  List.countP_append

theorem left_append (l l' : List (Mark α)) : left (l ++ l') = left l + left l' :=
  List.countP_append

theorem entered_mono {l l' : List (Mark α)} (h : l <+: l') : entered l ≤ entered l' :=
  h.sublist.countP_le

theorem left_mono {l l' : List (Mark α)} (h : l <+: l') : left l ≤ left l' :=
  h.sublist.countP_le

/-- **Barriers order actions.** An action of party `i` that comes after fewer barriers than party
`j` has left is done. -/
theorem Run.done_of_left {prog : ι → List (Mark α)} {tr : List (ι × Mark α)} (h : Run prog tr)
    {i j : ι} {l₁ l₂ : List (Mark α)} {a : α} (hprog : prog i = l₁ ++ .act a :: l₂)
    (hlt : entered l₁ < left (own j tr)) : l₁ ++ [.act a] <+: own i tr := by
  have hact : l₁ ++ [.act a] <+: prog i := ⟨l₂, by rw [hprog, List.append_assoc]; rfl⟩
  rcases Nat.lt_or_ge (own i tr).length (l₁ ++ [Mark.act a]).length with hshort | hlong
  · -- party `i` has not come to the action, so it has not entered enough barriers
    have hsub : own i tr <+: l₁ := by
      refine List.prefix_of_prefix_length_le (h.follows i) ⟨.act a :: l₂, hprog.symm⟩ ?_
      rw [List.length_append, List.length_singleton] at hshort
      omega
    have h₁ := entered_mono hsub
    have h₂ := h.safe j i
    omega
  · exact List.prefix_of_prefix_length_le hact (h.follows i) hlong

end P4db.Rounds
