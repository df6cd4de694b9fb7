import Mathlib.Algebra.Order.BigOperators.Group.List
import Mathlib.Algebra.Order.Group.Nat
import Mathlib.Data.List.Basic
import Mathlib.Tactic.Common

/-! A scratch buffer of fixed size, filled piece by piece: for as long as it has some room to spare, so
    that behind the last piece that is begun nothing more is written, whether there is more to write or
    not; or to the end, giving up at the first piece that would leave no cell free. -/

namespace Scratch

variable {α β : Type*}

/-- Write behind what is there; `none` where that would be out of bounds. -/
def write (size : ℕ) (out xs : List α) : Option (List α) :=
  if out.length + xs.length ≤ size then some (out ++ xs) else none

/-- Write one piece after the other, while fewer than `stop` cells are taken. -/
def fill (size stop : ℕ) (piece : β → List α) : List β → List α → Option (List α)
  | [], out => some out
  | b :: bs, out =>
    if out.length < stop then (write size out (piece b)).bind (fill size stop piece bs) else some out

/-- Write one piece after the other, and give up where no cell is left behind a piece. -/
def collect (size : ℕ) (piece : β → List α) : List β → List α → Option (List α)
  | [], out => if size ≤ out.length then none else some out
  | b :: bs, out =>
    if size ≤ out.length + (piece b).length then none
    else collect size piece bs (out ++ piece b)

variable {size stop w : ℕ} {piece : β → List α} {bs : List β} {out : List α}

theorem write_some {xs : List α} (h : out.length + xs.length ≤ size) :
    write size out xs = some (out ++ xs) := if_pos h

/-- As long as a piece is no longer than the room to spare, no write is out of bounds. -/
theorem fill_in_bounds (hpiece : ∀ b, (piece b).length ≤ w) (hroom : stop + w ≤ size + 1)
    (hout : out.length < stop + w) :
    ∃ out', fill size stop piece bs out = some out' ∧ out'.length < stop + w := by
  induction bs generalizing out with
  | nil => exact ⟨out, rfl, hout⟩
  | cons b bs ih =>
    rw [fill]
    split
    · have hb := hpiece b
      rw [write_some (by omega)]
      exact ih (by rw [List.length_append]; omega)
    · exact ⟨out, rfl, hout⟩

/-- Everything is written just when the last piece is begun. -/
theorem fill_whole_iff (hpos : ∀ b, 0 < (piece b).length) (hpiece : ∀ b, (piece b).length ≤ w)
    (hroom : stop + w ≤ size + 1) : fill size stop piece bs out = some (out ++ bs.flatMap piece) ↔
      bs = [] ∨ out.length + (bs.dropLast.flatMap piece).length < stop := by
  induction bs generalizing out with
  | nil => exact iff_of_true (congrArg some (List.append_nil _).symm) (.inl rfl)
  | cons b bs ih =>
    have hb := hpiece b
    rw [fill]
    split
    · next hlt =>
      rw [write_some (by omega), Option.bind_some, List.flatMap_cons, ← List.append_assoc, ih]
      cases bs with
      | nil => exact iff_of_true (.inl rfl) (.inr hlt)
      | cons b' bs =>
        rw [List.dropLast_cons_cons, List.flatMap_cons, List.length_append, List.length_append,
          Nat.add_assoc]
        simp
    · next hge =>
      refine iff_of_false ?_ ?_
      · intro h
        have hlen := congrArg List.length (Option.some.inj h)
        have := hpos b
        rw [List.length_append, List.flatMap_cons, List.length_append] at hlen
        omega
      · rintro (h | h)
        · cases h
        · omega

/-- All of it is written, or nothing comes of it. -/
theorem collect_eq (bs : List β) (out : List α) : collect size piece bs out =
    if (out ++ bs.flatMap piece).length < size then some (out ++ bs.flatMap piece) else none := by
  induction bs generalizing out with
  | nil =>
    rw [collect, List.flatMap_nil, List.append_nil]
    by_cases h : out.length < size
    · rw [if_neg (Nat.not_le.mpr h), if_pos h]
    · rw [if_pos (Nat.not_lt.mp h), if_neg h]
  | cons b bs ih =>
    rw [collect, List.flatMap_cons, ← List.append_assoc]
    split
    · next hfull =>
      refine (if_neg fun h => ?_).symm
      simp only [List.length_append] at h
      omega
    · exact ih (out ++ piece b)

/-- How much all the pieces take at most. -/
theorem length_flatMap_le_mul (hpiece : ∀ b, (piece b).length ≤ w) (bs : List β) :
    (bs.flatMap piece).length ≤ bs.length * w := by
  induction bs with
  | nil => exact Nat.zero_le _
  | cons b bs ih =>
    have hb := hpiece b
    rw [List.flatMap_cons, List.length_append, List.length_cons, Nat.succ_mul]
    omega

/-! ### Two tables of pieces -/

variable {piece' : β → List α}

/-- Where no piece is longer in the one table than in the other, and the whole is not shorter, none is. -/
theorem length_flatMap_eq (hle : ∀ b ∈ bs, (piece b).length ≤ (piece' b).length)
    (h : (bs.flatMap piece).length = (bs.flatMap piece').length) :
    ∀ b ∈ bs, (piece b).length = (piece' b).length := by
  intro b hb
  by_contra hne
  rw [List.length_flatMap, List.length_flatMap] at h
  refine Nat.ne_of_lt (List.sum_lt_sum _ _ hle ⟨b, hb, ?_⟩) h
  exact Nat.lt_of_le_of_ne (hle b hb) hne

end Scratch
