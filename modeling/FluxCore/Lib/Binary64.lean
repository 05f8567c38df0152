import Mathlib.Data.Int.Log
import Mathlib.Data.Rat.Floor

/-!
# Rounding to binary64

The values of a `double` computation in its normal range, as rational numbers: each operation is the
exact one followed by `round`, to the nearest number with a 53-bit significand, ties to even.
-/

namespace FluxCore.Binary64

/-- To the nearest integer, a tie to the even one. -/
def roundHalfEven (q : ℚ) : ℤ :=
  let down := q.floor
  let rest := q - down
  if rest < 1 / 2 then down
  else if 1 / 2 < rest then down + 1
  else if down % 2 = 0 then down else down + 1

/-- The weight exponent of the last significand bit of `q`. -/
def lastBit (q : ℚ) : ℤ := Int.log 2 |q| - 52

def round (q : ℚ) : ℚ :=
  if q = 0 then 0 else roundHalfEven (q / 2 ^ lastBit q) * 2 ^ lastBit q

/-- The conversion to an integer type, towards zero. -/
def trunc (q : ℚ) : ℤ := if 0 ≤ q then q.floor else q.ceil

theorem roundHalfEven_intCast (m : ℤ) : roundHalfEven m = m := by
  unfold roundHalfEven
  simp

/-- A natural number that fits in the significand is exact. -/
theorem round_natCast {n : ℕ} (h : n < 2 ^ 53) : round n = n := by
  unfold round
  split
  next hzero => exact hzero.symm
  next hne =>
    have hpos : n ≠ 0 := fun h => hne (by rw [h, Nat.cast_zero])
    have hlog : Nat.log 2 n ≤ 52 := Nat.lt_succ_iff.mp (Nat.log_lt_of_lt_pow hpos h)
    have hbit : lastBit n = -((52 - Nat.log 2 n : ℕ) : ℤ) := by
      rw [lastBit, Nat.abs_cast, Int.log_natCast]
      omega
    have hscaled : (n : ℚ) / 2 ^ lastBit n = ((n * 2 ^ (52 - Nat.log 2 n) : ℕ) : ℤ) := by
      rw [hbit, zpow_neg, div_inv_eq_mul, zpow_natCast]
      push_cast
      rfl
    rw [hscaled, roundHalfEven_intCast, ← hscaled]
    exact div_mul_cancel₀ _ (zpow_ne_zero _ (by norm_num))

theorem trunc_natCast (n : ℕ) : trunc n = n := by
  unfold trunc
  rw [if_pos (Nat.cast_nonneg n)]
  exact Rat.floor_intCast n

end FluxCore.Binary64
