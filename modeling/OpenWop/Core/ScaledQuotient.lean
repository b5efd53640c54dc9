import Mathlib.Algebra.Order.Field.Rat
import Mathlib.Data.Nat.Size
import Mathlib.Tactic.FieldSimp
import Mathlib.Tactic.Linarith
import Mathlib.Tactic.Positivity
import Mathlib.Tactic.Ring

/-!
# Quotients scaled by bit lengths

A ratio of two natural numbers is scaled by a power of two, taken from their bit lengths, so that its
integer part has a given number of bits, or one more. The integer part is then the ratio up to a
relative error. Nothing here names a program.
-/

namespace OpenWop.ScaledQuotient

/-- The exponent that brings the ratio to the given number of bits. -/
def shiftBits (bits num den : ℕ) : ℕ := den.size + bits - num.size

/-- The integer part of the scaled ratio. -/
def quotient (bits num den : ℕ) : ℕ := num * 2 ^ shiftBits bits num den / den

variable {bits num den : ℕ}

theorem le_shiftBits (h : num ≤ den) : bits ≤ shiftBits bits num den := by
  have := Nat.size_le_size h
  unfold shiftBits
  omega

/-- The scaled ratio has the bits it should have. -/
theorem scaled_bounds (hnum : 0 < num) (h : num ≤ den) :
    2 ^ bits * den < 2 * (num * 2 ^ shiftBits bits num den) ∧
      num * 2 ^ shiftBits bits num den < 2 ^ (bits + 1) * den := by
  have hsize := Nat.size_le_size h
  have hn := Nat.size_pos.mpr hnum
  have hnlow : 2 ^ (num.size - 1) ≤ num := Nat.lt_size.mp (by omega)
  have hdlow : 2 ^ (den.size - 1) ≤ den := Nat.lt_size.mp (by omega)
  constructor
  · calc 2 ^ bits * den < 2 ^ bits * 2 ^ den.size := by gcongr; exact Nat.lt_size_self den
      _ = 2 * (2 ^ (num.size - 1) * 2 ^ shiftBits bits num den) := by
        rw [← pow_add, ← pow_add, ← pow_succ']
        congr 1
        unfold shiftBits
        omega
      _ ≤ 2 * (num * 2 ^ shiftBits bits num den) := by gcongr
  · calc num * 2 ^ shiftBits bits num den
        < 2 ^ num.size * 2 ^ shiftBits bits num den := by gcongr; exact Nat.lt_size_self num
      _ = 2 ^ (bits + 1) * 2 ^ (den.size - 1) := by
        rw [← pow_add, ← pow_add]
        congr 1
        unfold shiftBits
        omega
      _ ≤ 2 ^ (bits + 1) * den := by gcongr

/-- The integer part has the given number of bits, or one more. -/
theorem quotient_bounds (hbits : 0 < bits) (hnum : 0 < num) (h : num ≤ den) :
    2 ^ (bits - 1) ≤ quotient bits num den ∧ quotient bits num den < 2 ^ (bits + 1) := by
  obtain ⟨hlow, hhigh⟩ := scaled_bounds hnum h
  have hden : 0 < den := hnum.trans_le h
  have hhalf : 2 ^ bits = 2 * 2 ^ (bits - 1) := by
    rw [← pow_succ']
    congr 1
    omega
  rw [hhalf, mul_assoc] at hlow
  constructor
  · exact (Nat.le_div_iff_mul_le hden).mpr (Nat.lt_of_mul_lt_mul_left hlow).le
  · exact (Nat.div_lt_iff_lt_mul hden).mpr hhigh

/-- The scaled ratio in terms of its integer part. -/
theorem quotient_le_ratio (hden : 0 < den) :
    (quotient bits num den : ℚ) ≤ (num : ℚ) / den * 2 ^ shiftBits bits num den ∧
      (num : ℚ) / den * 2 ^ shiftBits bits num den < quotient bits num den + 1 := by
  have hpos : (0 : ℚ) < den := by exact_mod_cast hden
  have hratio : (num : ℚ) / den * 2 ^ shiftBits bits num den =
      ((num * 2 ^ shiftBits bits num den : ℕ) : ℚ) / den := by
    push_cast
    ring
  rw [hratio, le_div_iff₀ hpos, div_lt_iff₀ hpos]
  constructor
  · exact_mod_cast Nat.div_mul_le_self (num * 2 ^ shiftBits bits num den) den
  · exact_mod_cast (Nat.div_lt_iff_lt_mul hden).mp (Nat.lt_succ_self _)

/-- Scaled back, the integer part differs from the ratio by less than its least bit tells. -/
theorem quotient_error (hbits : 0 < bits) (hnum : 0 < num) (h : num ≤ den) :
    |(num : ℚ) / den - quotient bits num den * 2 ^ (-(shiftBits bits num den : ℤ))| <
      2 ^ (-((bits - 1 : ℕ) : ℤ)) * ((num : ℚ) / den) := by
  have hden : 0 < den := hnum.trans_le h
  obtain ⟨hlow, hhigh⟩ := quotient_le_ratio hden
  have hbelow : (2 : ℚ) ^ (bits - 1) < (num : ℚ) / den * 2 ^ shiftBits bits num den := by
    have hpos : (0 : ℚ) < den := by exact_mod_cast hden
    have hscaled : (2 : ℚ) ^ bits * den < 2 * (num * 2 ^ shiftBits bits num den) := by
      exact_mod_cast (scaled_bounds hnum h).1
    have hhalf : (2 : ℚ) ^ bits = 2 * 2 ^ (bits - 1) := by
      rw [← pow_succ']
      congr 1
      omega
    rw [hhalf, mul_assoc] at hscaled
    have hcancel := lt_of_mul_lt_mul_left hscaled (by norm_num : (0 : ℚ) ≤ 2)
    rwa [div_mul_eq_mul_div, lt_div_iff₀ hpos]
  generalize (num : ℚ) / den = x at *
  rw [zpow_neg, zpow_neg, zpow_natCast, zpow_natCast]
  have hscale : (0 : ℚ) < 2 ^ shiftBits bits num den := by positivity
  generalize (2 : ℚ) ^ shiftBits bits num den = p at *
  have hone : (0 : ℚ) < 2 ^ (bits - 1) := by positivity
  have hdiff : x - quotient bits num den * p⁻¹ = (x * p - quotient bits num den) / p := by
    field_simp
  rw [hdiff, abs_of_nonneg (by apply div_nonneg <;> linarith), div_lt_iff₀ hscale, mul_assoc]
  calc x * p - quotient bits num den < 1 := by linarith
    _ = (2 ^ (bits - 1))⁻¹ * 2 ^ (bits - 1) := (inv_mul_cancel₀ hone.ne').symm
    _ < (2 ^ (bits - 1))⁻¹ * (x * p) := by gcongr

end OpenWop.ScaledQuotient
