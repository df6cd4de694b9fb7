import Mathlib.Tactic.Common

/-! The two sides of a match. -/

namespace VO

inductive Side where
  | host | guest
  deriving DecidableEq, Repr

def Side.other : Side → Side
  | .host => .guest
  | .guest => .host

@[simp] theorem Side.other_other : ∀ i : Side, i.other.other = i
  | .host => rfl
  | .guest => rfl

@[simp] theorem Side.other_ne : ∀ i : Side, i.other ≠ i
  | .host => by decide
  | .guest => by decide

theorem Side.eq_or_other (i : Side) : ∀ j : Side, j = i ∨ j = i.other
  | .host => by cases i <;> simp [Side.other]
  | .guest => by cases i <;> simp [Side.other]

instance (P : Side → Prop) [DecidablePred P] : Decidable (∀ i, P i) :=
  decidable_of_iff (P .host ∧ P .guest)
    ⟨fun h i => by
      cases i with
      | host => exact h.1
      | guest => exact h.2, fun h => ⟨h .host, h .guest⟩⟩

end VO
