import Mathlib.Algebra.Order.Floor.Ring
import Mathlib.Data.Int.Log
import Mathlib.Data.Rat.Floor
import Mathlib.Tactic.Positivity

/-!
# Rounding to a binary precision

The nearest number with `p` significant bits, ties to even, for non-negative rationals. Exponents are
unbounded: overflow and subnormal numbers do not arise.
-/

namespace Rounding

/-- The nearest integer, the even one of two. -/
def nearestEven (x : ℚ) : ℤ :=
  if x - ⌊x⌋ < 1 / 2 then ⌊x⌋
  else if 1 / 2 < x - ⌊x⌋ then ⌊x⌋ + 1
  else if ⌊x⌋ % 2 = 0 then ⌊x⌋ else ⌊x⌋ + 1

theorem floor_le_nearestEven (x : ℚ) : ⌊x⌋ ≤ nearestEven x := by
  unfold nearestEven
  split_ifs <;> omega

/-- The nearest number with `p` significant bits. -/
def toPrec (p : ℕ) (x : ℚ) : ℚ :=
  if x = 0 then 0
  else nearestEven (x / 2 ^ (Int.log 2 x - (p - 1))) * 2 ^ (Int.log 2 x - (p - 1))

/-- The scaled number of which the nearest integer is taken. -/
theorem one_le_scaled {p : ℕ} {x : ℚ} (hp : 0 < p) (hx : 0 < x) : 1 ≤ x / 2 ^ (Int.log 2 x - (p - 1)) := by
  have he : (0 : ℚ) < 2 ^ (Int.log 2 x - (p - 1)) := zpow_pos rfl _
  have hlog : (2 : ℚ) ^ Int.log 2 x ≤ x := Int.zpow_log_le_self one_lt_two hx
  rw [one_le_div he]
  exact (zpow_le_zpow_right₀ one_le_two (by omega)).trans hlog

theorem toPrec_pos {p : ℕ} {x : ℚ} (hp : 0 < p) (hx : 0 < x) : 0 < toPrec p x := by
  rw [toPrec, if_neg hx.ne']
  have he : (0 : ℚ) < 2 ^ (Int.log 2 x - (p - 1)) := zpow_pos rfl _
  have hone := one_le_scaled hp hx
  have hnear : 1 ≤ nearestEven (x / 2 ^ (Int.log 2 x - (p - 1))) :=
    (Int.le_floor.mpr (by exact_mod_cast hone)).trans (floor_le_nearestEven _)
  exact mul_pos (by exact_mod_cast hnear) he

theorem nearestEven_le (x : ℚ) : nearestEven x ≤ ⌊x⌋ + 1 := by
  unfold nearestEven
  split_ifs <;> omega

/-- Rounding does not double a number. -/
theorem toPrec_le {p : ℕ} {x : ℚ} (hp : 0 < p) (hx : 0 < x) : toPrec p x ≤ 2 * x := by
  rw [toPrec, if_neg hx.ne']
  have he : (0 : ℚ) < 2 ^ (Int.log 2 x - (p - 1)) := zpow_pos rfl _
  have hone := one_le_scaled hp hx
  have hnear : (nearestEven (x / 2 ^ (Int.log 2 x - (p - 1))) : ℚ) ≤ x / 2 ^ (Int.log 2 x - (p - 1)) + 1 := by
    have hfloor := Int.floor_le (x / 2 ^ (Int.log 2 x - (p - 1)))
    have hnear : (nearestEven (x / 2 ^ (Int.log 2 x - (p - 1))) : ℚ) ≤ ⌊x / 2 ^ (Int.log 2 x - (p - 1))⌋ + 1 := by
      exact_mod_cast nearestEven_le _
    linarith
  calc nearestEven (x / 2 ^ (Int.log 2 x - (p - 1))) * 2 ^ (Int.log 2 x - (p - 1))
      ≤ 2 * (x / 2 ^ (Int.log 2 x - (p - 1))) * 2 ^ (Int.log 2 x - (p - 1)) :=
        mul_le_mul_of_nonneg_right (by linarith) he.le
    _ = 2 * x := by rw [mul_assoc, div_mul_cancel₀ _ he.ne']

/-- Rounding does not halve a number. -/
theorem le_toPrec {p : ℕ} {x : ℚ} (hp : 0 < p) (hx : 0 < x) : x / 2 ≤ toPrec p x := by
  rw [toPrec, if_neg hx.ne']
  have he : (0 : ℚ) < 2 ^ (Int.log 2 x - (p - 1)) := zpow_pos rfl _
  have hone := one_le_scaled hp hx
  have hnear : x / 2 ^ (Int.log 2 x - (p - 1)) / 2 ≤ nearestEven (x / 2 ^ (Int.log 2 x - (p - 1))) := by
    have hfloor := Int.lt_floor_add_one (x / 2 ^ (Int.log 2 x - (p - 1)))
    have hfloor1 : (1 : ℚ) ≤ ⌊x / 2 ^ (Int.log 2 x - (p - 1))⌋ := by
      exact_mod_cast Int.le_floor.mpr (by exact_mod_cast hone)
    have hnear : (⌊x / 2 ^ (Int.log 2 x - (p - 1))⌋ : ℚ) ≤ nearestEven (x / 2 ^ (Int.log 2 x - (p - 1))) := by
      exact_mod_cast floor_le_nearestEven _
    linarith
  calc x / 2 = x / 2 ^ (Int.log 2 x - (p - 1)) / 2 * 2 ^ (Int.log 2 x - (p - 1)) := by
        rw [div_right_comm, div_mul_cancel₀ _ he.ne']
    _ ≤ _ := mul_le_mul_of_nonneg_right hnear he.le

end Rounding
