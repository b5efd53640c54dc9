import Mathlib.Algebra.Order.Field.Power
import Mathlib.Algebra.Order.Field.Rat
import Mathlib.Data.Int.Log
import Mathlib.Data.Nat.Prime.Basic
import Mathlib.Data.Rat.Floor
import Mathlib.Tactic.FieldSimp
import Mathlib.Tactic.Linarith
import Mathlib.Tactic.Positivity
import Mathlib.Tactic.Ring

/-!
# Rounding to a binary format and shortest decimals

A binary format has a precision and a least exponent. Rounding a value to the nearest
multiple of its unit in the last place gives a representable value, and representable
values are fixed. The shortest decimal of a value is the one with the fewest digits that
rounds to it, so it reads back as the value. Nothing here names a program.
-/

namespace OpenWop.Rounding

/-- A binary format without a greatest exponent. -/
structure Format where
  precision : Nat
  minExponent : Int
  precision_pos : 0 < precision

section Nearest

/-- The nearest integer, ties to even. -/
def roundHalfEven (q : ℚ) : ℤ :=
  if q - ⌊q⌋ < 1 / 2 then ⌊q⌋
  else if 1 / 2 < q - ⌊q⌋ then ⌊q⌋ + 1
  else if ⌊q⌋ % 2 = 0 then ⌊q⌋ else ⌊q⌋ + 1

theorem roundHalfEven_natCast (n : ℕ) : roundHalfEven n = n := by
  have hfloor : ⌊(n : ℚ)⌋ = n := Int.floor_natCast n
  rw [roundHalfEven, hfloor, if_pos]
  simp

theorem roundHalfEven_eq_or (q : ℚ) : roundHalfEven q = ⌊q⌋ ∨ roundHalfEven q = ⌊q⌋ + 1 := by
  rw [roundHalfEven]
  split_ifs <;> simp

theorem roundHalfEven_nonneg {q : ℚ} (h : 0 ≤ q) : 0 ≤ roundHalfEven q := by
  have hfloor := Int.floor_nonneg.mpr h
  rcases roundHalfEven_eq_or q with hr | hr <;> omega

theorem roundHalfEven_le {q : ℚ} {n : ℤ} (h : q < n) : roundHalfEven q ≤ n := by
  have hfloor := Int.floor_lt.mpr h
  rcases roundHalfEven_eq_or q with hr | hr <;> omega

end Nearest

namespace Format

variable (F : Format)

/-- The exponent of the unit in the last place of a value. -/
def ulpExponent (q : ℚ) : ℤ := max F.minExponent (Int.log 2 q - (F.precision - 1))

/-- The nearest multiple of the unit in the last place. -/
def round (q : ℚ) : ℚ := roundHalfEven (q / 2 ^ F.ulpExponent q) * 2 ^ F.ulpExponent q

/-- A value the format holds. -/
def Representable (x : ℚ) : Prop :=
  ∃ (m : ℕ) (e : ℤ), m ≤ 2 ^ F.precision ∧ F.minExponent ≤ e ∧ x = m * 2 ^ e

variable {F}

/-- A value with a short significand is a multiple of its unit in the last place. -/
theorem ulpExponent_le {m : ℕ} {e : ℤ} (hm : 0 < m) (hlt : m < 2 ^ F.precision)
    (he : F.minExponent ≤ e) : F.ulpExponent (m * 2 ^ e) ≤ e := by
  have hpos : (0 : ℚ) < m * 2 ^ e := by positivity
  have hbound : (m : ℚ) * 2 ^ e < 2 ^ ((F.precision : ℤ) + e) := by
    rw [zpow_add₀ (by norm_num)]
    refine mul_lt_mul_of_pos_right ?_ (by positivity)
    exact_mod_cast hlt
  have hlog : Int.log 2 ((m : ℚ) * 2 ^ e) < F.precision + e :=
    (Int.lt_zpow_iff_log_lt (by norm_num) hpos).mp (by exact_mod_cast hbound)
  rw [ulpExponent, max_le_iff]
  constructor <;> omega

/-- A representable value is fixed. -/
theorem round_of_representable {x : ℚ} (h : F.Representable x) : F.round x = x := by
  have hshort : ∀ (m : ℕ) (e : ℤ), 0 < m → m < 2 ^ F.precision → F.minExponent ≤ e →
      F.round (m * 2 ^ e) = m * 2 ^ e := by
    intro m e hm hlt he
    obtain ⟨n, hn⟩ := Int.eq_ofNat_of_zero_le (sub_nonneg.mpr (ulpExponent_le hm hlt he))
    have hdiv : (m : ℚ) * 2 ^ e / 2 ^ F.ulpExponent (m * 2 ^ e) = (m * 2 ^ n : ℕ) := by
      rw [mul_div_assoc, ← zpow_sub₀ (by norm_num), hn, zpow_natCast]
      push_cast
      rfl
    rw [round, hdiv, roundHalfEven_natCast, Int.cast_natCast, ← hdiv]
    exact div_mul_cancel₀ _ (by positivity)
  obtain ⟨m, e, hle, he, rfl⟩ := h
  rcases Nat.eq_zero_or_pos m with rfl | hm
  · simp [round, roundHalfEven]
  rcases hle.lt_or_eq with hlt | rfl
  · exact hshort m e hm hlt he
  -- The greatest significand is half of it with the next exponent.
  have hhalf := hshort (2 ^ (F.precision - 1)) (e + 1) (by positivity)
    (Nat.pow_lt_pow_right (by norm_num) (by have := F.precision_pos; omega)) (by omega)
  have hvalue : ((2 ^ (F.precision - 1) : ℕ) : ℚ) * 2 ^ (e + 1) = (2 ^ F.precision : ℕ) * 2 ^ e := by
    obtain ⟨p, hp⟩ := Nat.exists_eq_succ_of_ne_zero F.precision_pos.ne'
    rw [hp, Nat.succ_eq_add_one, Nat.add_sub_cancel, zpow_add₀ (by norm_num), pow_succ]
    push_cast
    ring
  rwa [hvalue] at hhalf

/-- Rounding gives a representable value. -/
theorem representable_round {q : ℚ} (h : 0 ≤ q) : F.Representable (F.round q) := by
  have hnonneg : 0 ≤ q / 2 ^ F.ulpExponent q := by positivity
  obtain ⟨m, hm⟩ := Int.eq_ofNat_of_zero_le (roundHalfEven_nonneg hnonneg)
  refine ⟨m, F.ulpExponent q, ?_, le_max_left _ _, by rw [round, hm]; rfl⟩
  have hlog : Int.log 2 q + 1 ≤ F.precision + F.ulpExponent q := by
    have := le_max_right F.minExponent (Int.log 2 q - (F.precision - 1))
    rw [ulpExponent]
    omega
  have hlt : q < 2 ^ ((F.precision : ℤ) + F.ulpExponent q) := by
    have hself : q < ((2 : ℕ) : ℚ) ^ (Int.log 2 q + 1) := Int.lt_zpow_succ_log_self (by norm_num) q
    rw [Nat.cast_ofNat] at hself
    exact hself.trans_le (zpow_le_zpow_right₀ (by norm_num) hlog)
  have hquot : q / 2 ^ F.ulpExponent q < ((2 ^ F.precision : ℕ) : ℤ) := by
    rw [div_lt_iff₀ (by positivity)]
    rw [zpow_add₀ (by norm_num), zpow_natCast] at hlt
    exact_mod_cast hlt
  have hle := roundHalfEven_le hquot
  rw [hm] at hle
  exact_mod_cast hle

section Shortest

/-- The value of a decimal, given by coefficient and exponent. -/
def decimalValue (d : ℕ × ℤ) : ℚ := d.1 * 10 ^ d.2

/-- The nearer of two decimals, and the even one of two that are equally near. -/
def nearer (x : ℚ) (down up : ℕ × ℤ) : ℕ × ℤ :=
  if x - decimalValue down < decimalValue up - x then down
  else if decimalValue up - x < x - decimalValue down then up
  else if down.1 % 2 = 0 then down else up

variable (F)

/-- The nearest decimal with that many digits that rounds to the value. -/
def decimalOfLength (x : ℚ) (digits : ℕ) : Option (ℕ × ℤ) :=
  let e := Int.log 10 x + 1 - digits
  let down := (⌊x / 10 ^ e⌋₊, e)
  let up := (⌈x / 10 ^ e⌉₊, e)
  if F.round (decimalValue down) = x then
    some (if F.round (decimalValue up) = x then nearer x down up else down)
  else if F.round (decimalValue up) = x then some up
  else none

/-- The decimal of a dyadic value that is equal to it. -/
def exactDecimal (x : ℚ) : ℕ × ℤ := (x.num.toNat * 5 ^ x.den.log2, -x.den.log2)

/-- The decimal with the fewest digits that rounds to the value, the exact one when that takes more
digits than are tried. -/
def shortest (tried : ℕ) (x : ℚ) : ℕ × ℤ :=
  ((List.range tried).findSome? fun k => F.decimalOfLength x (k + 1)).getD (exactDecimal x)

variable {F}

theorem round_decimalOfLength {x : ℚ} {digits : ℕ} {d : ℕ × ℤ}
    (h : F.decimalOfLength x digits = some d) : F.round (decimalValue d) = x := by
  simp only [decimalOfLength, nearer] at h
  split_ifs at h <;> (cases h; assumption)

/-- A representable value is dyadic. -/
theorem Representable.den_eq {x : ℚ} (h : F.Representable x) :
    0 ≤ x ∧ ∃ n, x.den = 2 ^ n := by
  obtain ⟨m, e, _, _, rfl⟩ := h
  refine ⟨by positivity, ?_⟩
  rcases Int.eq_nat_or_neg e with ⟨n, rfl | rfl⟩
  · refine ⟨0, ?_⟩
    have hnat : (m : ℚ) * 2 ^ (n : ℤ) = ((m * 2 ^ n : ℕ) : ℚ) := by
      push_cast
      rw [zpow_natCast]
    rw [hnat, Rat.den_natCast, pow_zero]
  · have hdiv : (m : ℚ) * 2 ^ (-(n : ℤ)) = ((m : ℤ) : ℚ) / ((2 ^ n : ℤ) : ℚ) := by
      push_cast
      rw [zpow_neg, zpow_natCast, div_eq_mul_inv]
    rw [hdiv]
    have hdvd := Rat.den_dvd m (2 ^ n)
    have hnat : (((m : ℤ) : ℚ) / ((2 ^ n : ℤ) : ℚ)).den ∣ 2 ^ n := by exact_mod_cast hdvd
    obtain ⟨k, _, hk⟩ := (Nat.dvd_prime_pow Nat.prime_two).mp hnat
    exact ⟨k, hk⟩

theorem decimalValue_exactDecimal {x : ℚ} (h : F.Representable x) :
    decimalValue (exactDecimal x) = x := by
  obtain ⟨hx, n, hn⟩ := h.den_eq
  have hnum : ((x.num.toNat : ℤ) : ℚ) = x.num := by rw [Int.toNat_of_nonneg (Rat.num_nonneg.mpr hx)]
  rw [decimalValue, exactDecimal, hn, Nat.log2_two_pow, zpow_neg, zpow_natCast]
  have hten : (10 : ℚ) ^ n = 2 ^ n * 5 ^ n := by rw [← mul_pow]; norm_num
  have hsplit : x = x.num / 2 ^ n := by
    conv_lhs => rw [← Rat.num_div_den x, hn]
    push_cast
    rfl
  conv_rhs => rw [hsplit, ← hnum]
  rw [hten]
  push_cast
  field_simp

/-- The shortest decimal rounds to its value. -/
theorem round_shortest (tried : ℕ) {x : ℚ} (h : F.Representable x) :
    F.round (decimalValue (F.shortest tried x)) = x := by
  rw [shortest]
  cases hd : (List.range tried).findSome? fun k => F.decimalOfLength x (k + 1) with
  | none => rw [Option.getD_none, decimalValue_exactDecimal h, round_of_representable h]
  | some d =>
    obtain ⟨k, _, hk⟩ := List.exists_of_findSome?_eq_some hd
    exact round_decimalOfLength hk

end Shortest

end Format

end OpenWop.Rounding
