import Mathlib.Data.Fintype.Defs
import Mathlib.Logic.Function.Basic

/-!
# A barrier

A call of a barrier waits until all parties have made one, and then all go on.  A party
that goes on may be back before the others have left.
-/

namespace ArmsTiering

inductive BarrierStatus
  | away
  | waiting
  | released
  deriving DecidableEq

namespace Barrier

variable {P : Type*} [DecidableEq P]

/-- A party begins to wait; the last one releases all. -/
def arrive [Fintype P] (b : P → BarrierStatus) (p : P) : P → BarrierStatus :=
  if ∀ q, Function.update b p .waiting q = .waiting then fun _ => .released
  else Function.update b p .waiting

/-- A party goes on, once it is released. -/
def leave (b : P → BarrierStatus) (p : P) : Option (P → BarrierStatus) :=
  if b p = .released then some (Function.update b p .away) else none

/-- Somebody is still to come. -/
def Open (b : P → BarrierStatus) : Prop := ∃ p, b p ≠ .waiting

variable {b b' : P → BarrierStatus} {p : P}

theorem arrive_cases [Fintype P] (b : P → BarrierStatus) (p : P) :
    (Open (Function.update b p .waiting) ∧ arrive b p = Function.update b p .waiting) ∨
      ((∀ q, q ≠ p → b q = .waiting) ∧ arrive b p = fun _ => .released) := by
  by_cases hall : ∀ q, Function.update b p .waiting q = .waiting
  · refine .inr ⟨fun q hq => ?_, if_pos hall⟩
    rw [← hall q, Function.update_of_ne hq]
  · exact .inl ⟨not_forall.mp hall, if_neg hall⟩

theorem open_arrive [Fintype P] (b : P → BarrierStatus) (p : P) : Open (arrive b p) := by
  rcases arrive_cases b p with ⟨hopen, heq⟩ | ⟨_, heq⟩
  · rwa [heq]
  · rw [heq]
    exact ⟨p, nofun⟩

theorem leave_eq_some : leave b p = some b' ↔ b p = .released ∧ Function.update b p .away = b' := by
  rw [leave, Option.ite_none_right_eq_some, Option.some.injEq]

end Barrier

end ArmsTiering
