import Mathlib.Data.Option.Basic

/-! One thread waits for what another has to tell it, under a lock. What is told is a value of which
    only the newest counts: a flag says that it has been put since it was last taken. And a wait on
    the lock's condition is over when it is notified or when its time is, though the lock is still to
    be had. -/

namespace Monitor

/-! ### Waits -/

/-- A wait that is not over, that a notification has ended, or that has run out. -/
inductive Wait where
  | blocked
  | notified
  | expired
  deriving DecidableEq, Repr

/-- A notification ends a wait that is not over, and is lost on one that is. -/
def Wait.notify : Wait → Wait
  | .blocked => .notified
  | w => w

theorem Wait.notify_ne (w : Wait) : w.notify ≠ .blocked := by
  cases w with
  | blocked => exact Wait.noConfusion
  | notified => exact Wait.noConfusion
  | expired => exact Wait.noConfusion

/-! ### Values -/

/-- A value, whether it has been put since it was last taken, and what was taken then. -/
structure Cell (α : Type*) where
  value : α
  dirty : Bool
  taken : Option α

namespace Cell

variable {α : Type*} {c : Cell α}

def put (c : Cell α) (v : α) : Cell α := { c with value := v, dirty := true }

def take (c : Cell α) : Cell α := { c with dirty := false, taken := some c.value }

/-- Nothing has been put that was not taken. -/
def Fresh (c : Cell α) : Prop := c.dirty = false → c.taken = some c.value

theorem fresh_put (c : Cell α) (v : α) : (c.put v).Fresh := fun h => absurd h (by simp [put])

theorem fresh_take (c : Cell α) : c.take.Fresh := fun _ => rfl

/-- Whatever is done to a cell, by puts and takes, it stays fresh. -/
inductive Does (c : Cell α) : Cell α → Prop
  | nothing : Does c c
  | put (v : α) : Does c (c.put v)
  | take : Does c c.take

theorem Does.fresh {d : Cell α} (h : c.Does d) (hc : c.Fresh) : d.Fresh := by
  cases h with
  | nothing => exact hc
  | put v => exact c.fresh_put v
  | take => exact c.fresh_take

end Cell
end Monitor
