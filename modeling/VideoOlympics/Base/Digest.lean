import Mathlib.Logic.Function.Basic
import Mathlib.RingTheory.Nilpotent.Basic
import Mathlib.Tactic.LinearCombination
import Mathlib.Tactic.Ring

/-! Digests folded over a list. A step that is injective in what it has so far, and in what it is
    given, sees every change of one element, wherever it is and whatever the others are. Of a step
    that multiplies, lets something of its own in and adds, one can say what it sees of an exchange
    of two elements. -/

namespace Digest

variable {α β : Type*} {f : β → α → β}

/-- Two lists differ in exactly one place. -/
def Apart (l l' : List α) : Prop :=
  ∃ pre x y post, x ≠ y ∧ l = pre ++ x :: post ∧ l' = pre ++ y :: post

/-- Two digests that differ go on differing. -/
theorem foldl_injective (hleft : ∀ x, Function.Injective fun b => f b x) (l : List α) :
    Function.Injective fun b => l.foldl f b := by
  induction l with
  | nil => exact fun _ _ h => h
  | cons x l ih => exact fun _ _ h => hleft x (ih h)

/-- A change of one element changes the digest. -/
theorem foldl_ne (hleft : ∀ x, Function.Injective fun b => f b x)
    (hright : ∀ b, Function.Injective (f b)) {l l' : List α} (h : Apart l l') (b : β) :
    l.foldl f b ≠ l'.foldl f b := by
  obtain ⟨pre, x, y, post, hne, rfl, rfl⟩ := h
  rw [List.foldl_append, List.foldl_append, List.foldl_cons, List.foldl_cons]
  exact fun heq => hne (hright _ (foldl_injective hleft post heq))

/-! ### Multiply, let in, add -/

section Weighted

variable {R : Type*} [CommRing R] (f : R → R → R) (w : R) (c : R → R)

/-- What is let in from a start over the elements that follow, at the weight it has in the end. -/
def drift : R → List R → R
  | b, [] => c b
  | b, m :: ms => w ^ (ms.length + 1) * c b + drift (f b m) ms

/-- What is added by the elements themselves, at the weight it has in the end. -/
def load : List R → R
  | [] => 0
  | m :: ms => w ^ (ms.length + 1) * m + load ms

variable {f w c}

/-- A start goes through the elements that follow, and the step after them, by its weight and what
    is let in and added on the way. -/
theorem foldl_weighted (hf : ∀ b x, f b x = w * b + c b + x) : ∀ (ms : List R) (b : R),
    w * ms.foldl f b + c (ms.foldl f b) = w ^ (ms.length + 1) * b + drift f w c b ms + load w ms
  | [], b => by
      simp only [List.foldl_nil, List.length_nil, drift, load]
      ring
  | m :: ms, b => by
      rw [List.foldl_cons, foldl_weighted hf ms (f b m), drift, load, List.length_cons, hf b m]
      ring

/-- Two elements that change places change the digest just when what is let in between them does not
    make up for it. -/
theorem foldl_swap_eq_iff (hf : ∀ b x, f b x = w * b + c b + x)
    (hleft : ∀ x, Function.Injective fun b => f b x) (pre mid post : List R) (x y b : R) :
    (pre ++ x :: (mid ++ y :: post)).foldl f b = (pre ++ y :: (mid ++ x :: post)).foldl f b ↔
      (w ^ (mid.length + 1) - 1) * (x - y) =
        drift f w c (f (pre.foldl f b) y) mid - drift f w c (f (pre.foldl f b) x) mid := by
  simp only [List.foldl_append, List.foldl_cons]
  rw [(foldl_injective hleft post).eq_iff]
  set p := pre.foldl f b
  have hx := foldl_weighted hf mid (f p x)
  have hy := foldl_weighted hf mid (f p y)
  rw [hf (mid.foldl f (f p x)) y, hf (mid.foldl f (f p y)) x, hx, hy]
  have hdiff : f p x - f p y = x - y := by
    rw [hf, hf]
    ring
  constructor
  · intro h
    linear_combination h - w ^ (mid.length + 1) * hdiff
  · intro h
    linear_combination h + w ^ (mid.length + 1) * hdiff

/-- What is let in cannot hide the exchange of two different elements if it is the same in both
    orders, when the weight dies out. -/
theorem foldl_swap_ne (hf : ∀ b x, f b x = w * b + c b + x)
    (hleft : ∀ x, Function.Injective fun b => f b x) (hw : IsNilpotent w) {pre mid post : List R}
    {x y b : R} (hne : x ≠ y)
    (hsame : drift f w c (f (pre.foldl f b) y) mid = drift f w c (f (pre.foldl f b) x) mid) :
    (pre ++ x :: (mid ++ y :: post)).foldl f b ≠
      (pre ++ y :: (mid ++ x :: post)).foldl f b := by
  intro h
  rw [foldl_swap_eq_iff hf hleft, hsame, sub_self] at h
  have hunit : IsUnit (w ^ (mid.length + 1) - 1) :=
    IsNilpotent.isUnit_sub_one (hw.pow_of_pos (Nat.succ_ne_zero _))
  exact hne (sub_eq_zero.mp (hunit.mul_right_eq_zero.mp h))

end Weighted

end Digest
