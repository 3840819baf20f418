import Mathlib.Data.Int.Log
import Mathlib.Data.Rat.Floor
import Mathlib.Tactic.FieldSimp
import Mathlib.Tactic.GCongr
import Mathlib.Tactic.Linarith
import Mathlib.Tactic.NormNum
import Mathlib.Tactic.Ring

/-!
# Rounding to double precision

A positive number is rounded to 53 significant bits, ties to even; the range
of the exponent is never met here. What a later truncation needs is that a
number which falls short of a small integer by less than its last bit is
rounded to the integer or above it.
-/

namespace DoubleRounding

/-- The nearest integer, ties to the even one. -/
def roundHalfEven (x : ℚ) : ℤ :=
  if x - ⌊x⌋ < 1 / 2 then ⌊x⌋
  else if 1 / 2 < x - ⌊x⌋ then ⌊x⌋ + 1
  else if ⌊x⌋ % 2 = 0 then ⌊x⌋ else ⌊x⌋ + 1

/-- The double nearest to `x`. -/
def double (x : ℚ) : ℚ :=
  roundHalfEven (x / 2 ^ (Int.log 2 x - 52)) * 2 ^ (Int.log 2 x - 52)

theorem le_roundHalfEven {n : ℤ} {x : ℚ} (h : n - 1 / 2 < x) : n ≤ roundHalfEven x := by
  have hfloor := Int.floor_le x
  have hlt := Int.lt_floor_add_one x
  by_cases hn : (n : ℚ) ≤ x
  · have hle : n ≤ ⌊x⌋ := Int.le_floor.mpr hn
    rw [roundHalfEven]
    split_ifs <;> omega
  · have hnear : n ≤ ⌊x⌋ + 1 := by
      have : (n : ℚ) < ⌊x⌋ + 1 + 1 := by linarith
      exact_mod_cast Int.lt_add_one_iff.mp (by exact_mod_cast this)
    rw [roundHalfEven]
    by_cases heq : n = ⌊x⌋ + 1
    · have hup : 1 / 2 < x - ⌊x⌋ := by
        rw [heq] at h
        push_cast at h
        linarith
      rw [if_neg (by linarith), if_pos hup]
      exact heq.le
    · split_ifs <;> omega

theorem roundHalfEven_le (x : ℚ) : (roundHalfEven x : ℚ) ≤ x + 1 := by
  have hfloor := Int.floor_le x
  have hlt := Int.lt_floor_add_one x
  rw [roundHalfEven]
  split_ifs <;> push_cast <;> linarith

/-- Below 2^53 the unit of the last bit is the inverse of a natural power of two. -/
theorem double_eq {x : ℚ} (hpos : 0 < x) (hlt : x < 2 ^ 53) :
    ∃ k : ℕ, double x = roundHalfEven (x * 2 ^ k) / 2 ^ k ∧ x * 2 ^ k < 2 ^ 53 := by
  have hlow := Int.zpow_log_le_self (b := 2) (by norm_num) hpos
  have hhigh := Int.lt_zpow_succ_log_self (b := 2) (by norm_num) x
  push_cast at hlow hhigh
  have hle : Int.log 2 x ≤ 52 := by
    have hpow : (2 : ℚ) ^ Int.log 2 x < 2 ^ (53 : ℤ) := hlow.trans_lt (by exact_mod_cast hlt)
    have := (zpow_lt_zpow_iff_right₀ (by norm_num : (1 : ℚ) < 2)).mp hpow
    omega
  obtain ⟨k, hk⟩ : ∃ k : ℕ, Int.log 2 x - 52 = -(k : ℤ) := ⟨(52 - Int.log 2 x).toNat, by omega⟩
  refine ⟨k, ?_, ?_⟩
  · rw [double, hk, zpow_neg, zpow_natCast, div_inv_eq_mul, div_eq_mul_inv]
  · have hsum : Int.log 2 x + 1 = 53 - (k : ℤ) := by omega
    rw [hsum, zpow_sub₀ (by norm_num), zpow_natCast] at hhigh
    rw [lt_div_iff₀ (by positivity)] at hhigh
    exact_mod_cast hhigh

/-- A number that falls short of an integer by at most one part in 2^55 is rounded up to it. -/
theorem le_double {n : ℕ} {x : ℚ} (hpos : 0 < x) (hlt : x < 2 ^ 53)
    (h : n * (1 - 1 / 2 ^ 55) ≤ x) : n ≤ double x := by
  obtain ⟨k, hd, hscaled⟩ := double_eq hpos hlt
  have hshort : (n * 2 ^ k : ℚ) * (1 - 1 / 2 ^ 55) ≤ x * 2 ^ k := by
    calc (n * 2 ^ k : ℚ) * (1 - 1 / 2 ^ 55) = n * (1 - 1 / 2 ^ 55) * 2 ^ k := by ring
      _ ≤ x * 2 ^ k := by gcongr
  have hround : ((n * 2 ^ k : ℕ) : ℤ) ≤ roundHalfEven (x * 2 ^ k) := by
    apply le_roundHalfEven
    push_cast
    -- the scaled integer is below 2^54, so the shortfall is at most a half
    have hsmall : (n * 2 ^ k : ℚ) < 2 ^ 54 := by nlinarith
    nlinarith
  rw [hd, le_div_iff₀ (by positivity)]
  exact_mod_cast hround

theorem double_le {x : ℚ} (hpos : 0 < x) (hlt : x < 2 ^ 53) : double x ≤ x + 1 := by
  obtain ⟨k, hd, -⟩ := double_eq hpos hlt
  have hone : (1 : ℚ) ≤ 2 ^ k := one_le_pow₀ (by norm_num)
  rw [hd, div_le_iff₀ (by positivity)]
  calc (roundHalfEven (x * 2 ^ k) : ℚ) ≤ x * 2 ^ k + 1 := roundHalfEven_le _
    _ ≤ x * 2 ^ k + 2 ^ k := by linarith
    _ = (x + 1) * 2 ^ k := by ring

end DoubleRounding
