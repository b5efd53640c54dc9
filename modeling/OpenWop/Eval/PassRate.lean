import Mathlib.Data.Nat.Choose.Central
import OpenWop.Core.ScaledQuotient
import OpenWop.Js.NumberOrder

/-!
# Pass rates of repeated trials

`pass@k` and `pass^k` are ratios of binomials. Each ratio is built as two products of differences of
Numbers, and turned into a Number once, by an integer division and a scaling in steps. The counts are
natural numbers, and a Number in `[0, 1]` is given by its value.
-/

namespace OpenWop.Eval

open OpenWop.Js Rounding ScaledQuotient

section Ratio

/-- `BigInt(a - i)`, the difference of two Numbers. -/
def difference (a i : ℕ) : ℤ :=
  if i ≤ a then (binary64.round ((a : ℚ) - i)).num else -(binary64.round ((i : ℚ) - a)).num

/-- `(a - 0) * (a - 1) * … * (a - (k - 1))`. -/
def differences (a k : ℕ) : ℤ :=
  (List.range k).foldl (fun product i => product * difference a i) 1

/-- `n.toString(2).length`. -/
def binaryLength (n : ℕ) : ℕ := if n = 0 then 1 else n.size

/-- `n << shift`. -/
def shiftLeft (n : ℕ) (shift : ℤ) : ℕ :=
  if 0 ≤ shift then n * 2 ^ shift.toNat else n / 2 ^ (-shift).toNat

/-- `r *= 2 ** -1000` while the exponent is above `1000`, then `r * 2 ** -e`. -/
def scaleDown (r : ℚ) (e : ℤ) : ℚ :=
  if 1000 < e then scaleDown (binary64.round (r * 2 ^ (-1000 : ℤ))) (e - 1000)
  else binary64.round (r * 2 ^ (-e))
termination_by e.toNat
decreasing_by omega

/-- The exponent of the scaled ratio. -/
def ratioShift (num den : ℕ) : ℤ := binaryLength den - binaryLength num + 64

/-- The integer part of the scaled ratio. -/
def ratioQuotient (num den : ℕ) : ℕ := shiftLeft num (ratioShift num den) / den

/-- `num / den` as a Number, for `num` at most `den` and both positive. -/
def ratioToNumber (num den : ℕ) : ℚ :=
  if num = 0 then 0
  else scaleDown (binary64.round (ratioQuotient num den)) (ratioShift num den)

/-- `C(a, k) / C(b, k)`. -/
def binomRatio (a : ℤ) (b k : ℕ) : Except JsString ℚ :=
  if b < k then
    .error (js "k=" ++ (JsNumber.ofNat k).text ++ js " outside 0.." ++ (JsNumber.ofNat b).text)
  else if a < k then .ok 0
  else .ok (ratioToNumber (differences a.toNat k).toNat (differences b k).toNat)

/-- `pass@k`. -/
def passAtK (n c k : ℕ) : Except JsString ℚ :=
  if c = 0 then .ok 0
  else (binomRatio (difference n c) n k).map fun ratio => binary64.round (1 - ratio)

/-- `pass^k`. -/
def passHatK (n c k : ℕ) : Except JsString ℚ := if c < k then .ok 0 else binomRatio c n k

end Ratio

section Products

variable {a b k i : ℕ}

/-- Small counts are subtracted exactly. -/
theorem difference_eq (ha : a ≤ 2 ^ 53) (hi : i ≤ a) : difference a i = ((a - i : ℕ) : ℤ) := by
  have hrep : binary64.Representable ((a - i : ℕ) : ℚ) :=
    Format.representable_natCast (show a - i ≤ 2 ^ 53 by omega) (by decide)
  rw [difference, if_pos hi, ← Nat.cast_sub hi, Format.round_of_representable hrep]
  exact Rat.num_natCast _

theorem differences_succ (a k : ℕ) :
    differences a (k + 1) = differences a k * difference a k := by
  rw [differences, List.range_succ, List.foldl_concat]
  rfl

/-- The product of small differences is a falling factorial. -/
theorem differences_eq (ha : a ≤ 2 ^ 53) (hk : k ≤ a) :
    differences a k = a.descFactorial k := by
  induction k with
  | zero => rfl
  | succ k ih =>
    rw [differences_succ, ih (by omega), difference_eq ha (by omega), Nat.descFactorial_succ]
    push_cast
    ring

/-- The two products are in the ratio of the binomials. -/
theorem descFactorial_ratio :
    (a.descFactorial k : ℚ) / b.descFactorial k = (a.choose k : ℚ) / b.choose k := by
  rw [Nat.descFactorial_eq_factorial_mul_choose, Nat.descFactorial_eq_factorial_mul_choose]
  push_cast
  exact mul_div_mul_left _ _ (by exact_mod_cast k.factorial_ne_zero)

end Products

section Quotient

variable {num den : ℕ}

theorem ratioShift_eq (hnum : 0 < num) (h : num ≤ den) :
    ratioShift num den = shiftBits 64 num den := by
  have hsize := Nat.size_le_size h
  have hden : 0 < den := hnum.trans_le h
  rw [ratioShift, binaryLength, binaryLength, if_neg hnum.ne', if_neg hden.ne', shiftBits]
  omega

theorem ratioQuotient_eq (hnum : 0 < num) (h : num ≤ den) :
    ratioQuotient num den = quotient 64 num den := by
  rw [ratioQuotient, ratioShift_eq hnum h, shiftLeft, if_pos (Int.natCast_nonneg _),
    Int.toNat_natCast]
  rfl

/-- A step and the rest of the steps. -/
theorem scaleDown_of_lt {r : ℚ} {e : ℤ} (h : 1000 < e) :
    scaleDown r e = scaleDown (binary64.round (r * 2 ^ (-1000 : ℤ))) (e - 1000) := by
  rw [scaleDown, if_pos h]

theorem scaleDown_of_le {r : ℚ} {e : ℤ} (h : e ≤ 1000) :
    scaleDown r e = binary64.round (r * 2 ^ (-e)) := by
  rw [scaleDown, if_neg h.not_gt]

/-- Zero stays zero. -/
theorem scaleDown_zero {r : ℚ} {e : ℤ} (hr : r = 0) : scaleDown r e = 0 := by
  have hzero : binary64.round 0 = 0 := Format.round_eq_zero le_rfl (by positivity)
  induction r, e using scaleDown.induct with
  | case1 r e h ih =>
    rw [scaleDown_of_lt h]
    exact ih (by rw [hr, zero_mul, hzero])
  | case2 r e h => rw [scaleDown_of_le (not_lt.mp h), hr, zero_mul, hzero]

/-- A power of two within the range of the exponents is a Number. -/
theorem representable_zpow {e : ℤ} (h : -1074 ≤ e) : binary64.Representable (2 ^ e) :=
  ⟨1, e, by decide, h, by simp⟩

/-- Above `2000` nothing is left of the integer part. -/
theorem scaleDown_eq_zero {r : ℚ} {e : ℤ} (hr : 0 < r) (hle : r ≤ 2 ^ (65 : ℤ)) (he : 2000 < e) :
    scaleDown r e = 0 := by
  rw [scaleDown_of_lt (by omega), scaleDown_of_lt (by omega)]
  apply scaleDown_zero
  have hfirst : binary64.round (r * 2 ^ (-1000 : ℤ)) ≤ 2 ^ (-935 : ℤ) := by
    refine Format.round_le (representable_zpow (by norm_num)) (by positivity) ?_
    calc r * 2 ^ (-1000 : ℤ) ≤ 2 ^ (65 : ℤ) * 2 ^ (-1000 : ℤ) := by gcongr
      _ = 2 ^ (-935 : ℤ) := by rw [← zpow_add₀ (by norm_num)]; norm_num
  have hnonneg : 0 ≤ binary64.round (r * 2 ^ (-1000 : ℤ)) :=
    Format.le_round ⟨0, 0, by simp, by decide, by simp⟩ (by positivity)
  apply Format.round_eq_zero (by positivity)
  calc binary64.round (r * 2 ^ (-1000 : ℤ)) * 2 ^ (-1000 : ℤ)
      ≤ 2 ^ (-935 : ℤ) * 2 ^ (-1000 : ℤ) := by gcongr
    _ = 2 ^ (-1935 : ℤ) := by rw [← zpow_add₀ (by norm_num)]; norm_num
    _ < 2 ^ (binary64.minExponent - 1) := zpow_lt_zpow_right₀ (by norm_num) (by decide)

/-- Up to there, what is not below the least Number stays not below it. -/
theorem scaleDown_pos {r : ℚ} {e : ℤ} (hr : 2 ^ (63 : ℤ) ≤ r) (hle : 2 ^ (e - 1074) ≤ r)
    (he : e ≤ 2000) : 0 < scaleDown r e := by
  have hpos : (0 : ℚ) < 2 ^ (-1074 : ℤ) := by positivity
  have hstep : ∀ {x : ℚ} {d n : ℤ}, 2 ^ d ≤ x → -1074 ≤ d + n → 2 ^ (d + n) ≤
      binary64.round (x * 2 ^ n) := by
    intro x d n hx hd
    refine Format.le_round (representable_zpow hd) ?_
    rw [zpow_add₀ (by norm_num)]
    gcongr
  rcases le_or_gt e 1000 with h | h
  · rw [scaleDown_of_le h]
    exact (by positivity : (0 : ℚ) < 2 ^ (63 + -e)).trans_le (hstep hr (by omega))
  · rw [scaleDown_of_lt h, scaleDown_of_le (by omega)]
    rcases le_or_gt e 1074 with h' | h'
    · have hfirst := hstep (n := -1000) hr (by norm_num)
      exact (by positivity : (0 : ℚ) < 2 ^ (63 + -1000 + -(e - 1000))).trans_le
        (hstep hfirst (by omega))
    · have hfirst := hstep (n := -1000) hle (by omega)
      exact (by positivity : (0 : ℚ) < 2 ^ (e - 1074 + -1000 + -(e - 1000))).trans_le
        (hstep hfirst (by omega))

/-- A ratio that is not below the least Number does not vanish. -/
theorem ratioToNumber_pos (hnum : 0 < num) (h : num ≤ den)
    (hratio : 2 ^ (-1074 : ℤ) ≤ (num : ℚ) / den) : 0 < ratioToNumber num den := by
  obtain ⟨hlow, hhigh⟩ := @quotient_bounds 64 num den (by norm_num) hnum h
  obtain ⟨-, hceil⟩ := @quotient_le_ratio 64 num den (hnum.trans_le h)
  rw [ratioToNumber, if_neg hnum.ne', ratioShift_eq hnum h, ratioQuotient_eq hnum h]
  set s := shiftBits 64 num den
  set q := quotient 64 num den
  have hscaled : (2 : ℚ) ^ ((s : ℤ) - 1074) < q + 1 := by
    calc (2 : ℚ) ^ ((s : ℤ) - 1074) = 2 ^ (-1074 : ℤ) * 2 ^ s := by
          rw [← zpow_natCast, ← zpow_add₀ (by norm_num), add_comm, sub_eq_add_neg]
      _ ≤ (num : ℚ) / den * 2 ^ s := by gcongr
      _ < q + 1 := hceil
  have hround : 2 ^ (63 : ℤ) ≤ binary64.round q :=
    Format.le_round (representable_zpow (by norm_num)) (by exact_mod_cast hlow)
  have hs : (s : ℤ) ≤ 2000 := by
    by_contra hs
    have hbig : (2 : ℚ) ^ (66 : ℤ) ≤ 2 ^ ((s : ℤ) - 1074) :=
      zpow_le_zpow_right₀ (by norm_num) (by omega)
    have hq : (q : ℚ) + 1 ≤ 2 ^ (65 : ℤ) := by exact_mod_cast hhigh
    have : (2 : ℚ) ^ (65 : ℤ) < 2 ^ (66 : ℤ) := by norm_num
    linarith
  refine scaleDown_pos hround ?_ hs
  rcases le_or_gt 1074 (s : ℤ) with hle | hlt
  · obtain ⟨n, hn⟩ := Int.eq_ofNat_of_zero_le (sub_nonneg.mpr hle)
    rw [hn, zpow_natCast] at hscaled
    have hnat : 2 ^ n < q + 1 := by exact_mod_cast hscaled
    refine Format.le_round (representable_zpow (by omega)) ?_
    rw [hn, zpow_natCast]
    exact_mod_cast Nat.lt_succ_iff.mp hnat
  · exact (zpow_le_zpow_right₀ (by norm_num) (by omega)).trans hround

/-- A denominator with so many more bits leaves nothing. -/
theorem ratioToNumber_eq_zero (hnum : 0 < num) (h : 2 ^ 2188 * num ≤ den) :
    ratioToNumber num den = 0 := by
  have hord : num ≤ den := (Nat.le_mul_of_pos_left num (Nat.two_pow_pos _)).trans h
  obtain ⟨hlow, hhigh⟩ := @quotient_bounds 64 num den (by norm_num) hnum hord
  rw [ratioToNumber, if_neg hnum.ne', ratioShift_eq hnum hord, ratioQuotient_eq hnum hord]
  have hone : (1 : ℚ) ≤ binary64.round (quotient 64 num den) := by
    refine Format.le_round ⟨1, 0, by decide, by decide, by simp⟩ ?_
    exact_mod_cast (Nat.one_le_two_pow).trans hlow
  apply scaleDown_eq_zero (zero_lt_one.trans_le hone)
  · refine Format.round_le (representable_zpow (by norm_num)) ?_ (by exact_mod_cast hhigh.le)
    exact_mod_cast (Nat.two_pow_pos 63).trans_le hlow
  · have hbits : 2 ^ (num.size - 1) ≤ num :=
      Nat.lt_size.mp (Nat.sub_lt (Nat.size_pos.mpr hnum) one_pos)
    have hden : 2 ^ (2188 + (num.size - 1)) ≤ den := by
      rw [pow_add]
      exact (Nat.mul_le_mul_left _ hbits).trans h
    have hsize := Nat.lt_size.mpr hden
    unfold shiftBits
    omega

end Quotient

section Claims

variable {a b k : ℕ}

/-- The products that are handed over are positive and in order. -/
theorem differences_pos (hk : k ≤ a) (hab : a ≤ b) (hb : b ≤ 2 ^ 53) :
    0 < (differences a k).toNat ∧ (differences a k).toNat ≤ (differences b k).toNat := by
  rw [differences_eq (hab.trans hb) hk, differences_eq hb (hk.trans hab), Int.toNat_natCast,
    Int.toNat_natCast]
  exact ⟨Nat.descFactorial_pos.mpr hk, Nat.descFactorial_le k hab⟩

/-- On counts up to `2 ^ 53` the ratio that is handed over is the one of the binomials, and its factors
are positive. The result is zero above `a`, and elsewhere only for a ratio below the least Number.
For every ratio the integer part has 64 or 65 bits and the relative error of its least bit. -/
theorem binomRatio_exact :
    (∀ a b k : ℕ, a ≤ b → k ≤ b → b ≤ 2 ^ 53 →
      (a < k → binomRatio a b k = .ok 0) ∧
      (k ≤ a → (∀ i < k, 0 < difference a i ∧ 0 < difference b i) ∧
        binomRatio a b k = .ok (ratioToNumber (differences a k).toNat (differences b k).toNat) ∧
        ((differences a k).toNat : ℚ) / (differences b k).toNat = (a.choose k : ℚ) / b.choose k ∧
        (2 ^ (-1074 : ℤ) ≤ (a.choose k : ℚ) / b.choose k → binomRatio a b k ≠ .ok 0))) ∧
    ∀ num den : ℕ, 0 < num → num ≤ den →
      (2 ^ 63 < ratioQuotient num den + 1 ∧ ratioQuotient num den + 1 ≤ 2 ^ 65) ∧
      |(num : ℚ) / den - ratioQuotient num den * 2 ^ (-ratioShift num den)| <
        2 ^ (-63 : ℤ) * ((num : ℚ) / den) := by
  constructor
  · intro a b k hab hkb hb
    constructor
    · intro hka
      rw [binomRatio, if_neg hkb.not_gt, if_pos (by exact_mod_cast hka)]
    · intro hka
      have hresult : binomRatio a b k =
          .ok (ratioToNumber (differences a k).toNat (differences b k).toNat) := by
        rw [binomRatio, if_neg hkb.not_gt, if_neg (by exact_mod_cast hka.not_gt), Int.toNat_natCast]
      have hratio : ((differences a k).toNat : ℚ) / (differences b k).toNat =
          (a.choose k : ℚ) / b.choose k := by
        rw [differences_eq (hab.trans hb) hka, differences_eq hb hkb, Int.toNat_natCast,
          Int.toNat_natCast, descFactorial_ratio]
      refine ⟨fun i hi => ?_, hresult, hratio, fun hleast hzero => ?_⟩
      · rw [difference_eq (hab.trans hb) (by omega), difference_eq hb (by omega)]
        omega
      · obtain ⟨hpos, hle⟩ := differences_pos hka hab hb
        rw [hresult, Except.ok.injEq] at hzero
        exact (ratioToNumber_pos hpos hle (hratio ▸ hleast)).ne' hzero
  · intro num den hnum h
    obtain ⟨hlow, hhigh⟩ := @quotient_bounds 64 num den (by norm_num) hnum h
    rw [ratioShift_eq hnum h, ratioQuotient_eq hnum h]
    exact ⟨⟨Nat.lt_succ_of_le hlow, hhigh⟩, quotient_error (by norm_num) hnum h⟩

theorem binomRatio_exact_small :
    (3 ≤ 5 ∧ 2 ≤ 5 ∧ 5 ≤ 2 ^ 53) ∧
      ((differences 3 2).toNat : ℚ) / (differences 5 2).toNat = (Nat.choose 3 2 : ℚ) / Nat.choose 5 2 ∧
      2 ^ 63 < ratioQuotient 6 20 + 1 :=
  ⟨by norm_num, ((binomRatio_exact.1 3 5 2 (by norm_num) (by norm_num) (by norm_num)).2
    (by norm_num)).2.2.1, (binomRatio_exact.2 6 20 (by norm_num) (by norm_num)).1.1⟩

/-- Half of many trials have a ratio far below the least Number. -/
theorem two_pow_mul_differences_le :
    2 ^ 2188 * (differences 1100 1100).toNat ≤ (differences 2200 1100).toNat := by
  have hcentral := Nat.four_pow_le_two_mul_self_mul_centralBinom 1100 (by norm_num)
  have htwice : 2 * 1100 = 2200 := rfl
  rw [Nat.centralBinom_eq_two_mul_choose, htwice] at hcentral
  have hfour : (4 : ℕ) ^ 1100 = 2 ^ 12 * 2 ^ 2188 := by
    rw [← pow_add, show (4 : ℕ) = 2 ^ 2 from rfl, ← pow_mul]
  rw [hfour] at hcentral
  rw [differences_eq (by norm_num) le_rfl, differences_eq (by norm_num) (by norm_num),
    Int.toNat_natCast, Int.toNat_natCast, Nat.descFactorial_self,
    Nat.descFactorial_eq_factorial_mul_choose 2200, mul_comm]
  refine Nat.mul_le_mul_left _ ?_
  generalize Nat.choose 2200 1100 = c at hcentral ⊢
  have hsmall : 2200 * c ≤ 2 ^ 12 * c := Nat.mul_le_mul_right c (by norm_num)
  exact Nat.le_of_mul_le_mul_left (hcentral.trans hsmall) (by norm_num)

/-- Above `2 ^ 53` a difference is rounded, and a ratio below the least Number vanishes. -/
theorem binomRatio_inexact :
    ((differences (2 ^ 53) 2).toNat : ℚ) / (differences (2 ^ 54) 2).toNat ≠
        (Nat.choose (2 ^ 53) 2 : ℚ) / Nat.choose (2 ^ 54) 2 ∧
      binomRatio 1100 2200 1100 = .ok 0 := by
  constructor
  · have hnum : (differences (2 ^ 53) 2).toNat = 2 ^ 53 * (2 ^ 53 - 1) := by decide +kernel
    have hden : (differences (2 ^ 54) 2).toNat = 2 ^ 54 * 2 ^ 54 := by decide +kernel
    rw [hnum, hden, Nat.choose_two_right, Nat.choose_two_right]
    norm_num
  · obtain ⟨hnum, -⟩ := differences_pos (show 1100 ≤ 1100 from le_rfl)
      (show 1100 ≤ 2200 by norm_num) (by norm_num)
    have hnat : (1100 : ℤ).toNat = 1100 := rfl
    rw [binomRatio, if_neg (by norm_num), if_neg (by norm_num), hnat,
      ratioToNumber_eq_zero hnum two_pow_mul_differences_le]

end Claims

end OpenWop.Eval
