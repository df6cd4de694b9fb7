import Mathlib.Algebra.Order.Ring.Abs
import Mathlib.Data.Int.ModEq
import Mathlib.Tactic.Linarith

/-! Serial-number arithmetic: a counter kept in `w` bits answers order and equality as the unbounded
    counter does, as long as the two values compared are less than half the range apart. -/

namespace Serial

variable {w : ℕ}

theorem ofInt_sub (a b : ℤ) :
    BitVec.ofInt w (a - b) = BitVec.ofInt w a - BitVec.ofInt w b := by
  have h : BitVec.ofInt w a = BitVec.ofInt w (a - b) + BitVec.ofInt w b := by
    rw [← BitVec.ofInt_add, sub_add_cancel]
  rw [h, BitVec.add_sub_cancel]

/-- The sign bit of a difference is set exactly when the unbounded difference is negative. -/
theorem msb_sub (a b : ℤ) (hlo : -2 ^ w ≤ a - b) (hhi : a - b < 2 ^ w) :
    (BitVec.ofInt (w + 1) a - BitVec.ofInt (w + 1) b).msb = decide (a < b) := by
  rw [← ofInt_sub, BitVec.msb_eq_toInt, BitVec.toInt_ofInt, Int.bmod_eq_of_le]
  · exact decide_eq_decide.mpr (by omega)
  · have : ((2 ^ (w + 1) : ℕ) : ℤ) / 2 = 2 ^ w := by
      rw [pow_succ]; push_cast; omega
    omega
  · have : (((2 ^ (w + 1) : ℕ) : ℤ) + 1) / 2 = 2 ^ w := by
      rw [pow_succ]; push_cast; omega
    omega

/-- Two counters less than the whole range apart are equal exactly when their low bits are. -/
theorem ofInt_inj (a b : ℤ) (h : |a - b| < 2 ^ w) :
    BitVec.ofInt w a = BitVec.ofInt w b ↔ a = b := by
  refine ⟨?_, fun hab => hab ▸ rfl⟩
  intro hab
  have hmod : a % (2 ^ w : ℕ) = b % (2 ^ w : ℕ) := by
    have := congrArg BitVec.toNat hab
    rw [BitVec.toNat_ofInt, BitVec.toNat_ofInt] at this
    have hpos : (0 : ℤ) < (2 ^ w : ℕ) := by positivity
    have ha := Int.emod_nonneg a hpos.ne'
    have hb := Int.emod_nonneg b hpos.ne'
    omega
  have hdvd : ((2 ^ w : ℕ) : ℤ) ∣ a - b := Int.ModEq.dvd hmod.symm
  by_contra hne
  have hle := Int.le_of_dvd (abs_pos.mpr (sub_ne_zero.mpr hne)) ((dvd_abs _ _).mpr hdvd)
  push_cast at hle
  omega

theorem ofInt_succ (a : ℤ) : BitVec.ofInt w (a + 1) = BitVec.ofInt w a + 1#w := by
  rw [BitVec.ofInt_add]
  congr 1

/-- The low `k` bits of a counter are the unbounded counter modulo `2 ^ k`. -/
theorem toNat_low_bits {k : ℕ} (hk : k ≤ w) (a : ℤ) :
    ((BitVec.ofInt w a &&& BitVec.ofNat w (2 ^ k - 1)).toNat : ℤ) = a % 2 ^ k := by
  have hpow : 2 ^ k ≤ 2 ^ w := Nat.pow_le_pow_right (by decide) hk
  have hlt : 2 ^ k - 1 < 2 ^ w := by have := Nat.two_pow_pos k; omega
  rw [BitVec.toNat_and, BitVec.toNat_ofNat, Nat.mod_eq_of_lt hlt,
    Nat.and_two_pow_sub_one_eq_mod, BitVec.toNat_ofInt]
  have hpos : (0 : ℤ) < (2 ^ w : ℕ) := by positivity
  have hnn := Int.toNat_of_nonneg (Int.emod_nonneg a hpos.ne')
  push_cast at hnn ⊢
  rw [hnn]
  exact Int.emod_emod_of_dvd a (pow_dvd_pow 2 hk)

/-- Two counters share their low `k` bits exactly when they agree modulo `2 ^ k`. -/
theorem low_bits_inj {k : ℕ} (hk : k ≤ w) (a b : ℤ) :
    BitVec.ofInt w a &&& BitVec.ofNat w (2 ^ k - 1) = BitVec.ofInt w b &&& BitVec.ofNat w (2 ^ k - 1)
      ↔ a % 2 ^ k = b % 2 ^ k := by
  rw [← toNat_low_bits hk a, ← toNat_low_bits hk b, Nat.cast_inj, BitVec.toNat_inj]

end Serial
