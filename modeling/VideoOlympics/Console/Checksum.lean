import VideoOlympics.Base.Digest
import VideoOlympics.Console.Gate
import Mathlib.Data.BitVec

/-! The simulation checksum. Each of the nine cells is added to a sum that is rotated first: a byte
    that changes always shows, and two that change places show unless the carries make up for it. -/

namespace VO

/-- The nine cells in the order they are added. -/
def Sim.cells (s : Sim) : List Byte :=
  [s.c96, s.c88, s.c8E, s.c8D, s.cB6, s.cB5, s.cB4, s.cB3, s.cB2]

theorem vocrc_eq (s : Sim) : vocrc s = s.cells.foldl aslAdc 0 := by
  simp [vocrc, Sim.cells, aslAdc]

/-- Shifting left and adding the carry is a rotation. -/
theorem aslAdc_eq (a m : Byte) : aslAdc a m = a.rotateLeft 1 + m := by
  have hrot : ∀ a : Byte, (a <<< 1) + (a >>> 7) = a.rotateLeft 1 := by decide
  rw [aslAdc, ← hrot, BitVec.add_assoc, BitVec.add_comm m, ← BitVec.add_assoc]

theorem aslAdc_injective_left (m : Byte) : Function.Injective fun a => aslAdc a m := by
  have hback : ∀ a : Byte, (a.rotateLeft 1).rotateRight 1 = a := by decide
  intro a b h
  simp only [aslAdc_eq, BitVec.add_left_inj] at h
  rw [← hback a, h, hback]

theorem aslAdc_injective_right (a : Byte) : Function.Injective (aslAdc a) := by
  intro m n h
  rwa [aslAdc_eq, aslAdc_eq, BitVec.add_right_inj] at h

/-- Cells that differ in one place have different checksums. -/
theorem vocrc_ne {s s' : Sim} (h : Digest.Apart s.cells s'.cells) : vocrc s ≠ vocrc s' := by
  rw [vocrc_eq, vocrc_eq]
  exact Digest.foldl_ne aslAdc_injective_left aslAdc_injective_right h 0

/-! ### Two cells that change places -/

/-- What the shifts carry out of the sum over some cells, and the shift after them, from a start. -/
def carried (a : Byte) (ms : List Byte) : Byte := Digest.drift aslAdc 2#8 (fun b => b >>> 7) a ms

/-- A rotation is a doubling that adds what it carries out. -/
theorem aslAdc_weighted (a m : Byte) : aslAdc a m = 2#8 * a + a >>> 7 + m := by
  have hrot : ∀ a : Byte, a.rotateLeft 1 = 2#8 * a + a >>> 7 := by decide
  rw [aslAdc_eq, hrot]

/-- Eight rotations lose a byte. -/
theorem two_nilpotent : IsNilpotent 2#8 := ⟨8, by decide⟩

/-- An exchange over the same carries shows. -/
theorem vocrc_swap_ne {s s' : Sim} {pre mid post : List Byte} {x y : Byte}
    (hs : s.cells = pre ++ x :: (mid ++ y :: post))
    (hs' : s'.cells = pre ++ y :: (mid ++ x :: post)) (hne : x ≠ y)
    (hsame : carried (aslAdc (pre.foldl aslAdc 0) y) mid =
      carried (aslAdc (pre.foldl aslAdc 0) x) mid) :
    vocrc s ≠ vocrc s' := by
  rw [vocrc_eq, vocrc_eq, hs, hs']
  exact Digest.foldl_swap_ne aslAdc_weighted aslAdc_injective_left two_nilpotent hne hsame

/-- Two cells that change places change the checksum just when their difference, rotated from the
    one place to the other, is not the difference of what the shifts between them carry out. -/
theorem vocrc_sees_swap_iff {s s' : Sim} {pre mid post : List Byte} {x y : Byte}
    (hs : s.cells = pre ++ x :: (mid ++ y :: post))
    (hs' : s'.cells = pre ++ y :: (mid ++ x :: post)) :
    vocrc s ≠ vocrc s' ↔
      (2#8 ^ (mid.length + 1) - 1#8) * (x - y) ≠
        carried (aslAdc (pre.foldl aslAdc 0) y) mid -
          carried (aslAdc (pre.foldl aslAdc 0) x) mid := by
  rw [vocrc_eq, vocrc_eq, hs, hs', not_iff_not]
  exact Digest.foldl_swap_eq_iff aslAdc_weighted aslAdc_injective_left pre mid post x y 0

/-- Scores of one and three, exchanged, show at once. -/
theorem vocrc_sees_swap_iff_scores :
    vocrc ⟨0, 0, 1, 3, 0, 0, 0, 0, 0⟩ ≠ vocrc ⟨0, 0, 3, 1, 0, 0, 0, 0, 0⟩ := by
  have hs : Sim.cells ⟨0, 0, 1, 3, 0, 0, 0, 0, 0⟩ = [0, 0] ++ 3 :: ([] ++ 1 :: [0, 0, 0, 0, 0]) := rfl
  have hs' : Sim.cells ⟨0, 0, 3, 1, 0, 0, 0, 0, 0⟩ = [0, 0] ++ 1 :: ([] ++ 3 :: [0, 0, 0, 0, 0]) := rfl
  exact (vocrc_sees_swap_iff hs hs').mpr (by decide)

/-- The frame counter at 127, rotated, and the lower score are a sum of 255: the two scores change
    places unseen. -/
theorem swapped_scores_unseen :
    ¬ ∀ (s s' : Sim) (pre mid post : List Byte) (x y : Byte),
      s.cells = pre ++ x :: (mid ++ y :: post) → s'.cells = pre ++ y :: (mid ++ x :: post) →
        x ≠ y → vocrc s ≠ vocrc s' :=
  fun h => h ⟨0, 127, 1, 2, 0, 0, 0, 0, 0⟩ ⟨0, 127, 2, 1, 0, 0, 0, 0, 0⟩ [0, 127] [] [0, 0, 0, 0, 0]
    2 1 rfl rfl (by decide) (by decide)

end VO
