import Mathlib.Data.List.Basic
import Mathlib.Tactic.Common

/-! Logs of a party that answers. What happens to it is an act, and right behind each act stand the
    answers the act calls for, in the state it is done in, and nothing else. A log of this form leads
    to a state, and what every allowed act keeps holds in it. -/

/-- A state, the acts it allows, what they do to it, and what they are answered with. -/
structure Responder (σ : Type*) (α : Type*) where
  start : σ
  allowed : σ → α → Prop
  after : σ → α → σ
  answers : σ → α → List α

namespace Responder

variable {σ α : Type*} (R : Responder σ α)

/-- The log of a dialogue, and the state it leads to. -/
inductive Dialogue : List α → σ → Prop
  | start : Dialogue [] R.start
  | act {log : List α} {h : σ} {a : α} : Dialogue log h → R.allowed h a →
      Dialogue (log ++ a :: R.answers h a) (R.after h a)

variable {R}

/-- What every allowed act keeps, a dialogue keeps. -/
theorem Dialogue.keeps {I : σ → Prop} (hstart : I R.start)
    (hact : ∀ h a, I h → R.allowed h a → I (R.after h a)) {log : List α} {h : σ}
    (hd : R.Dialogue log h) : I h := by
  induction hd with
  | start => exact hstart
  | act _ hallowed ih => exact hact _ _ ih hallowed

end Responder
