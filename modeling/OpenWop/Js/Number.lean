import Mathlib.Algebra.Order.Field.Rat
import Mathlib.Tactic.FieldSimp
import Mathlib.Tactic.Ring
import OpenWop.Js.Text

/-!
# ECMAScript numbers and their text

A finite number is given by its sign and by the decimal that `Number::toString`
selects for it, the shortest one that rounds to the number. Distinct numbers have
distinct selected decimals, so equality of the representation is `Object.is`.
Every decimal is admitted here, also those no double selects.
-/

namespace OpenWop.Js

/-- A signed decimal `coefficient * 10 ^ exponent` without trailing zeros. -/
structure Decimal where
  negative : Bool
  coefficient : Nat
  exponent : Int
  normal : coefficient % 10 ≠ 0 ∨ (coefficient = 0 ∧ exponent = 0)
  deriving DecidableEq, Repr

theorem Decimal.zero_normal : (0 : Nat) % 10 ≠ 0 ∨ ((0 : Nat) = 0 ∧ (0 : Int) = 0) :=
  Or.inr ⟨rfl, rfl⟩

/-- An ECMAScript Number. -/
inductive JsNumber where
  | nan
  | infinity (negative : Bool)
  | finite (d : Decimal)
  deriving DecidableEq, Repr

/-- Strip the trailing zeros of a positive count. -/
def stripZeros : Nat → Nat → Int → Nat × Int
  | 0, n, e => (n, e)
  | fuel + 1, n, e => if n % 10 = 0 then stripZeros fuel (n / 10) (e + 1) else (n, e)

theorem stripZeros_normal (fuel n : Nat) (e : Int) (hn : 0 < n) (hf : n ≤ fuel) :
    (stripZeros fuel n e).1 % 10 ≠ 0 := by
  induction fuel generalizing n e with
  | zero => omega
  | succ fuel ih =>
    rw [stripZeros]
    split
    · exact ih (n / 10) (e + 1) (by omega) (by omega)
    · assumption

/-- A natural number as a decimal. -/
def Decimal.ofNat (n : Nat) : Decimal :=
  if h : n = 0 then ⟨false, 0, 0, Decimal.zero_normal⟩
  else ⟨false, (stripZeros n n 0).1, (stripZeros n n 0).2,
    Or.inl (stripZeros_normal n n 0 (Nat.pos_of_ne_zero h) (le_refl n))⟩

/-- Stripping zeros keeps the value. -/
theorem stripZeros_value (fuel n : Nat) (e : Int) : e ≤ (stripZeros fuel n e).2 ∧
    (stripZeros fuel n e).1 * 10 ^ ((stripZeros fuel n e).2 - e).toNat = n := by
  induction fuel generalizing n e with
  | zero => simp [stripZeros]
  | succ fuel ih =>
    rw [stripZeros]
    split
    · next h =>
      obtain ⟨hle, hv⟩ := ih (n / 10) (e + 1)
      generalize stripZeros fuel (n / 10) (e + 1) = r at hle hv
      have he : (r.2 - e).toNat = (r.2 - (e + 1)).toNat + 1 := by omega
      refine ⟨by omega, ?_⟩
      rw [he, Nat.pow_succ, ← Nat.mul_assoc, hv]
      omega
    · simp

/-- The natural number a decimal denotes, if it denotes one. -/
def Decimal.toNat? (d : Decimal) : Option Nat :=
  if d.negative = false ∧ 0 ≤ d.exponent then some (d.coefficient * 10 ^ d.exponent.toNat)
  else none

/-- The Number with a natural value. -/
def JsNumber.ofNat (n : Nat) : JsNumber := .finite (Decimal.ofNat n)

/-- The natural number a Number is, if it is one. -/
def JsNumber.toNat? : JsNumber → Option Nat
  | .finite d => d.toNat?
  | _ => none

@[simp] theorem JsNumber.toNat?_ofNat (n : Nat) : (JsNumber.ofNat n).toNat? = some n := by
  by_cases hn : n = 0
  · subst hn
    rfl
  · obtain ⟨hle, hv⟩ := stripZeros_value n n 0
    simp only [JsNumber.ofNat, JsNumber.toNat?, Decimal.toNat?, Decimal.ofNat, hn, dite_false]
    simpa [hle] using hv

theorem JsNumber.ofNat_injective : Function.Injective JsNumber.ofNat := fun m n h => by
  have he := congrArg JsNumber.toNat? h
  simpa using he

/-- The decimal digits of a natural number, most significant first. -/
def digitsText (n : Nat) : JsString := (Nat.digits 10 n).reverse.map fun d => UInt16.ofNat (48 + d)

/-- The exponent part of scientific notation, sign included. -/
def exponentText (n : Int) : JsString :=
  if 0 ≤ n then unit '+' :: digitsText' n.toNat else unit '-' :: digitsText' (-n).toNat
where
  /-- The digits of an exponent, which is never the empty text. -/
  digitsText' (m : Nat) : JsString := if m = 0 then [unit '0'] else digitsText m

/-- `Number::toString` of a positive decimal: `digits` are its significant digits and
`n` the position of the decimal point relative to them. -/
def magnitudeText (coefficient : Nat) (exponent : Int) : JsString :=
  let digits := digitsText coefficient
  let k : Int := digits.length
  let n := exponent + k
  if k ≤ n ∧ n ≤ 21 then digits ++ List.replicate (n - k).toNat (unit '0')
  else if 0 < n ∧ n ≤ 21 then digits.take n.toNat ++ unit '.' :: digits.drop n.toNat
  else if -6 < n ∧ n ≤ 0 then
    unit '0' :: unit '.' :: (List.replicate (-n).toNat (unit '0') ++ digits)
  else if k = 1 then digits ++ unit 'e' :: exponentText (n - 1)
  else digits.take 1 ++ unit '.' :: digits.drop 1 ++ unit 'e' :: exponentText (n - 1)

/-- `Number::toString` of a finite number. Both zeros read `0`. -/
def Decimal.text (d : Decimal) : JsString :=
  if d.coefficient = 0 then [unit '0']
  else if d.negative then unit '-' :: magnitudeText d.coefficient d.exponent
  else magnitudeText d.coefficient d.exponent

/-- `String(x)` for a Number. -/
def JsNumber.text : JsNumber → JsString
  | .nan => js "NaN"
  | .infinity false => js "Infinity"
  | .infinity true => js "-Infinity"
  | .finite d => d.text

/-- `-0` read as `0`, every other number as itself. -/
def Decimal.unsigned (d : Decimal) : Decimal :=
  if d.coefficient = 0 then { d with negative := false } else d

/-- `-0` read as `0`, every other Number as itself. -/
def JsNumber.unsigned : JsNumber → JsNumber
  | .finite d => .finite d.unsigned
  | n => n

@[simp] theorem Decimal.unsigned_unsigned (d : Decimal) : d.unsigned.unsigned = d.unsigned := by
  unfold Decimal.unsigned
  split <;> simp_all

@[simp] theorem Decimal.text_unsigned (d : Decimal) : d.unsigned.text = d.text := by
  unfold Decimal.unsigned
  split
  · next h => simp [Decimal.text, h]
  · rfl

/-- `x === y` on Numbers: both zeros are equal, `NaN` equals nothing. -/
def JsNumber.strictEquals : JsNumber → JsNumber → Bool
  | .finite d, .finite e => d.unsigned.negative = e.unsigned.negative ∧ d.coefficient = e.coefficient ∧
      d.exponent = e.exponent
  | .infinity m, .infinity n => m = n
  | _, _ => false

example : (JsNumber.ofNat 0).text = js "0" := by decide
example : (JsNumber.ofNat 1200).text = js "1200" := by decide
example : magnitudeText 15 (-1) = js "1.5" := by decide
example : magnitudeText 5 (-7) = js "5e-7" := by decide
example : magnitudeText 125 (-6) = js "0.000125" := by decide
example : magnitudeText 12 21 = js "1.2e+22" := by decide

end OpenWop.Js
