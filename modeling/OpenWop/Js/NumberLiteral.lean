import Mathlib.Data.Nat.Digits.Lemmas
import OpenWop.Core.Rounding
import OpenWop.Js.NumberText

/-!
# Number literals

A JSON number literal has an integer part, and may have a fraction and an exponent. The
Number it is read as is the nearest double, by its shortest decimal. The text of a
finite number is a literal with the value of its decimal, so a double is read back from
its text, and what a literal is read as is a double.
-/

namespace OpenWop.Js

open Rounding

section Doubles

/-- The format of a Number. -/
def binary64 : Format := ⟨53, -1074, by decide⟩

/-- The decimal with that sign, coefficient and exponent, less trailing zeros. -/
def Decimal.ofParts (negative : Bool) (parts : Nat × Int) : Decimal :=
  if h : parts.1 = 0 then ⟨negative, 0, 0, Decimal.zero_normal⟩
  else ⟨negative, (stripZeros parts.1 parts.1 parts.2).1, (stripZeros parts.1 parts.1 parts.2).2,
    Or.inl (stripZeros_normal parts.1 parts.1 parts.2 (Nat.pos_of_ne_zero h) (le_refl _))⟩

/-- The absolute value of a decimal. -/
def Decimal.magnitude (d : Decimal) : ℚ := d.coefficient * 10 ^ d.exponent

/-- The Number nearest to a value with that sign. -/
def nearestNumber (negative : Bool) (q : ℚ) : JsNumber :=
  if 2 ^ 1024 ≤ binary64.round q then .infinity negative
  else .finite (Decimal.ofParts negative (binary64.shortest 17 (binary64.round q)))

/-- The decimal is the one `Number::toString` selects for a double. -/
def Decimal.IsDouble (d : Decimal) : Prop := nearestNumber d.negative d.magnitude = .finite d

instance (d : Decimal) : Decidable d.IsDouble :=
  inferInstanceAs (Decidable (nearestNumber d.negative d.magnitude = .finite d))

@[simp] theorem Decimal.negative_ofParts (b : Bool) (parts : Nat × Int) :
    (Decimal.ofParts b parts).negative = b := by
  unfold Decimal.ofParts
  split <;> rfl

theorem Decimal.magnitude_ofParts (b : Bool) (parts : Nat × Int) :
    (Decimal.ofParts b parts).magnitude = Format.decimalValue parts := by
  unfold Decimal.ofParts Decimal.magnitude Format.decimalValue
  split
  · next h => simp [h]
  · obtain ⟨hle, hv⟩ := stripZeros_value parts.1 parts.1 parts.2
    dsimp only
    generalize stripZeros parts.1 parts.1 parts.2 = r at hle hv ⊢
    have hsplit : r.2 = ((r.2 - parts.2).toNat : Int) + parts.2 := by omega
    rw [hsplit, zpow_add₀ (by norm_num), zpow_natCast, ← mul_assoc]
    congr 1
    exact_mod_cast hv

theorem Decimal.magnitude_nonneg (d : Decimal) : 0 ≤ d.magnitude := by
  unfold Decimal.magnitude
  positivity

@[simp] theorem Decimal.magnitude_unsigned (d : Decimal) : d.unsigned.magnitude = d.magnitude := by
  unfold Decimal.unsigned Decimal.magnitude
  split <;> rfl

/-- What a value is read as is a double. -/
theorem isDouble_of_nearestNumber {b : Bool} {q : ℚ} {d : Decimal} (hq : 0 ≤ q)
    (h : nearestNumber b q = .finite d) : d.IsDouble := by
  have hrep := Format.representable_round (F := binary64) hq
  unfold nearestNumber at h
  split at h
  · cases h
  · next hlt =>
    have hround := Format.round_shortest 17 hrep
    cases h
    rw [Decimal.IsDouble, Decimal.magnitude_ofParts, Decimal.negative_ofParts, nearestNumber, hround,
      if_neg hlt]

/-- A double without the sign of zero is a double. -/
theorem Decimal.IsDouble.unsigned {d : Decimal} (h : d.IsDouble) : d.unsigned.IsDouble := by
  unfold Decimal.unsigned
  split
  · next hc =>
    obtain ⟨b, c, e, hn⟩ := d
    obtain rfl : c = 0 := hc
    obtain ⟨_, rfl⟩ := hn.resolve_left (by simp)
    have hzero : (⟨false, 0, 0, Decimal.zero_normal⟩ : Decimal).IsDouble := by decide +kernel
    exact hzero
  · exact h

end Doubles

section Literals

/-- The exponent of a literal. -/
structure ExponentPart where
  marker : UInt16
  sign : Option UInt16
  digits : JsString
  deriving DecidableEq, Repr

/-- A number literal by its parts. -/
structure NumberLiteral where
  negative : Bool
  integer : JsString
  fraction : Option JsString
  exponent : Option ExponentPart
  deriving DecidableEq, Repr

/-- A nonempty text of digits. -/
def IsDigits (s : JsString) : Prop := s ≠ [] ∧ ∀ u ∈ s, isDigit u = true

/-- An integer part: zero, or digits without a leading zero. -/
def IsInteger (s : JsString) : Prop := s = [unit '0'] ∨ IsDigits s ∧ s.head? ≠ some (unit '0')

/-- The grammar of the exponent. -/
structure ExponentPart.Valid (x : ExponentPart) : Prop where
  marker : x.marker = unit 'e' ∨ x.marker = unit 'E'
  sign : ∀ u ∈ x.sign, u = unit '+' ∨ u = unit '-'
  digits : IsDigits x.digits

/-- The grammar of a number literal. -/
structure NumberLiteral.Valid (l : NumberLiteral) : Prop where
  integer : IsInteger l.integer
  fraction : ∀ s ∈ l.fraction, IsDigits s
  exponent : ∀ x ∈ l.exponent, x.Valid

/-- The text of an exponent. -/
def ExponentPart.text (x : ExponentPart) : JsString := x.marker :: (x.sign.toList ++ x.digits)

/-- The value of an exponent. -/
def ExponentPart.value (x : ExponentPart) : Int :=
  if x.sign = some (unit '-') then -(digitsValue x.digits : Int) else digitsValue x.digits

namespace NumberLiteral

/-- The text of the fraction, point included. -/
def fractionText (l : NumberLiteral) : JsString := (l.fraction.map (unit '.' :: ·)).getD []

/-- The text of the exponent. -/
def exponentText (l : NumberLiteral) : JsString := (l.exponent.map ExponentPart.text).getD []

/-- The text of the literal. -/
def text (l : NumberLiteral) : JsString :=
  (if l.negative then [unit '-'] else []) ++ (l.integer ++ (l.fractionText ++ l.exponentText))

/-- The absolute value of the literal. -/
def magnitude (l : NumberLiteral) : ℚ :=
  digitsValue (l.integer ++ l.fraction.getD []) *
    10 ^ ((l.exponent.map ExponentPart.value).getD 0 - (l.fraction.getD []).length)

/-- `Number(text)`. -/
def value (l : NumberLiteral) : JsNumber := nearestNumber l.negative l.magnitude

/-- The literal has no fraction and no exponent. -/
def isInteger (l : NumberLiteral) : Bool := l.fraction.isNone && l.exponent.isNone

theorem magnitude_nonneg (l : NumberLiteral) : 0 ≤ l.magnitude := by
  unfold magnitude
  positivity

/-- Without a sign, the value of the literal is that of its text. -/
theorem textValue_text {l : NumberLiteral} (h : l.Valid) (hn : l.negative = false)
    (hx : ∀ x ∈ l.exponent, x.marker = unit 'e' ∧ x.sign.isSome = true) :
    textValue l.text = l.magnitude := by
  obtain ⟨negative, integer, fraction, exponent⟩ := l
  have hi : ∀ u ∈ integer, isDigit u = true := by
    rcases h.integer with hz | hd
    · dsimp only at hz
      rw [hz]
      exact List.forall_mem_singleton.mpr rfl
    · exact hd.1.2
  have hexp : ∀ x ∈ exponent, ∃ sign, x.text = unit 'e' :: sign :: x.digits ∧
      x.value = exponentValue (sign :: x.digits) := by
    rintro ⟨marker, sign, digits⟩ hmem
    obtain ⟨hm, hs⟩ := hx _ hmem
    obtain ⟨u, hu⟩ := Option.isSome_iff_exists.mp hs
    dsimp only at hm hu
    subst hm hu
    refine ⟨u, rfl, ?_⟩
    simp [ExponentPart.value, exponentValue]
  dsimp only at hn
  subst hn
  cases fraction with
  | none =>
    cases exponent with
    | none => simp [text, fractionText, exponentText, magnitude, textValue_integer hi]
    | some x =>
      obtain ⟨sign, ht, hv⟩ := hexp x rfl
      simp [text, fractionText, exponentText, magnitude, ht, hv, textValue_exponent hi]
  | some f =>
    have hf := (h.fraction f rfl).2
    cases exponent with
    | none => simp [text, fractionText, exponentText, magnitude, textValue_fraction hi hf]
    | some x =>
      obtain ⟨sign, ht, hv⟩ := hexp x rfl
      have hs := textValue_scientific hi hf (sign :: x.digits)
      rw [List.append_assoc, List.cons_append] at hs
      simp [text, fractionText, exponentText, magnitude, ht, hv, hs]

end NumberLiteral

end Literals

section Texts

/-- The digits of a positive number do not start with a zero. -/
theorem head_digitsText {n : Nat} (h : n ≠ 0) : (digitsText n).head? ≠ some (unit '0') := by
  have hne : Nat.digits 10 n ≠ [] := Nat.digits_ne_nil_iff_ne_zero.mpr h
  have hlast := Nat.getLast_digit_ne_zero 10 h
  have hlt : (Nat.digits 10 n).getLast hne < 10 :=
    Nat.digits_lt_base (by decide) (List.getLast_mem hne)
  rw [digitsText, List.head?_map, List.head?_reverse, List.getLast?_eq_getLast_of_ne_nil hne,
    Option.map_some, ne_eq, Option.some.injEq]
  intro hz
  have ht := congrArg UInt16.toNat hz
  rw [toNat_digitUnit hlt] at ht
  have hzero : (unit '0').toNat = 48 := rfl
  omega

theorem isDigits_exponent (m : Nat) : IsDigits (exponentText.digitsText' m) := by
  rw [exponentText.digitsText']
  split
  · exact ⟨by simp, List.forall_mem_singleton.mpr rfl⟩
  · next h => exact ⟨digitsText_ne_nil h, fun u hu => isDigit_of_mem_digitsText hu⟩

/-- The exponent a number is written with. -/
theorem exists_exponentPart (n : Int) : ∃ x : ExponentPart, x.Valid ∧ x.marker = unit 'e' ∧
    x.sign.isSome = true ∧ x.text = unit 'e' :: exponentText n := by
  rw [exponentText]
  split
  · exact ⟨⟨unit 'e', some (unit '+'), _⟩, ⟨Or.inl rfl, by simp, isDigits_exponent _⟩, rfl, rfl, rfl⟩
  · exact ⟨⟨unit 'e', some (unit '-'), _⟩, ⟨Or.inl rfl, by simp, isDigits_exponent _⟩, rfl, rfl, rfl⟩

/-- A number is written with digits only. -/
def Decimal.PlainDigits (d : Decimal) : Prop :=
  0 ≤ d.exponent ∧ d.exponent + (digitsText d.coefficient).length ≤ 21

/-- The text of a positive decimal is a literal. -/
theorem exists_literal_magnitudeText {c : Nat} (hc : c ≠ 0) (e : Int) : ∃ l : NumberLiteral,
    l.Valid ∧ l.negative = false ∧ l.text = magnitudeText c e ∧
    (∀ x ∈ l.exponent, x.marker = unit 'e' ∧ x.sign.isSome = true) ∧
    (l.isInteger = true ↔ 0 ≤ e ∧ e + (digitsText c).length ≤ 21) := by
  have hhead := head_digitsText hc
  have hdigits : ∀ u ∈ digitsText c, isDigit u = true := fun u hu => isDigit_of_mem_digitsText hu
  obtain ⟨u, ds, hds⟩ := List.exists_cons_of_ne_nil (digitsText_ne_nil hc)
  rw [magnitudeText, hds]
  rw [hds] at hhead hdigits
  have hlead : u ≠ unit '0' := by simpa using hhead
  -- A part of the digits, or more digits, still start with the first one.
  have hint : ∀ s, (∀ v ∈ s, isDigit v = true) → IsInteger (u :: s) := fun s hs =>
    Or.inr ⟨⟨by simp, List.forall_mem_cons.mpr ⟨hdigits u List.mem_cons_self, hs⟩⟩, by simpa using hlead⟩
  rw [List.forall_mem_cons] at hdigits
  have hzeros : ∀ m : Nat, ∀ v ∈ List.replicate m (unit '0'), isDigit v = true := by
    intro m v hv
    rw [(List.mem_replicate.mp hv).2]
    decide
  split
  · next h =>
    refine ⟨⟨false, u :: (ds ++ List.replicate (e + (u :: ds).length - (u :: ds).length).toNat
      (unit '0')), none, none⟩, ⟨hint _ ?_, by simp, by simp⟩, rfl, ?_, by simp, ?_⟩
    · exact List.forall_mem_append.mpr ⟨hdigits.2, hzeros _⟩
    · simp [NumberLiteral.text, NumberLiteral.fractionText, NumberLiteral.exponentText]
    · simp only [NumberLiteral.isInteger, Option.isNone_none, Bool.and_self, true_iff]
      omega
  split
  · next h h' =>
    obtain ⟨m, hm⟩ : ∃ m, (e + (u :: ds).length).toNat = m + 1 :=
      ⟨(e + (u :: ds).length).toNat - 1, by omega⟩
    have hlt : m < ds.length := by
      have hlength : (u :: ds).length = ds.length + 1 := List.length_cons
      omega
    refine ⟨⟨false, u :: ds.take m, some (ds.drop m), none⟩, ⟨hint _ ?_, ?_, by simp⟩, rfl, ?_,
      by simp, ?_⟩
    · exact fun v hv => hdigits.2 v (List.mem_of_mem_take hv)
    · rintro s ⟨⟩
      exact ⟨by simpa using hlt, fun v hv => hdigits.2 v (List.mem_of_mem_drop hv)⟩
    · rw [hm]
      simp [NumberLiteral.text, NumberLiteral.fractionText, NumberLiteral.exponentText]
    · simp only [NumberLiteral.isInteger, Option.isNone_some, Bool.false_and, Bool.false_eq_true,
        false_iff]
      omega
  split
  · next h _ h' =>
    refine ⟨⟨false, [unit '0'], some (List.replicate (-(e + (u :: ds).length)).toNat (unit '0') ++
      u :: ds), none⟩, ⟨Or.inl rfl, ?_, by simp⟩, rfl, ?_, by simp, ?_⟩
    · rintro s ⟨⟩
      exact ⟨by simp, List.forall_mem_append.mpr ⟨hzeros _, List.forall_mem_cons.mpr hdigits⟩⟩
    · simp [NumberLiteral.text, NumberLiteral.fractionText, NumberLiteral.exponentText]
    · simp only [NumberLiteral.isInteger, Option.isNone_some, Bool.false_and, Bool.false_eq_true,
        false_iff]
      omega
  next h _ _ =>
  obtain ⟨x, hx, hm, hs, hxt⟩ := exists_exponentPart (e + (u :: ds).length - 1)
  have hnot : ¬ (0 ≤ e ∧ e + ((u :: ds).length : Int) ≤ 21) := by omega
  split
  · next h' =>
    refine ⟨⟨false, u :: ds, none, some x⟩, ⟨hint ds hdigits.2, by simp, ?_⟩, rfl, ?_, ?_, ?_⟩
    · rintro y ⟨⟩
      exact hx
    · simp [NumberLiteral.text, NumberLiteral.fractionText, NumberLiteral.exponentText, hxt]
    · rintro y ⟨⟩
      exact ⟨hm, hs⟩
    · simpa [NumberLiteral.isInteger] using hnot
  · next h' =>
    refine ⟨⟨false, [u], some ds, some x⟩, ⟨hint [] (by simp), ?_, ?_⟩, rfl, ?_, ?_, ?_⟩
    · rintro s ⟨⟩
      refine ⟨?_, hdigits.2⟩
      rintro rfl
      exact h' rfl
    · rintro y ⟨⟩
      exact hx
    · simp [NumberLiteral.text, NumberLiteral.fractionText, NumberLiteral.exponentText, hxt]
    · rintro y ⟨⟩
      exact ⟨hm, hs⟩
    · simpa [NumberLiteral.isInteger] using hnot

/-- The text of a finite number is a literal with the value of its decimal. -/
theorem Decimal.exists_literal (d : Decimal) : ∃ l : NumberLiteral, l.Valid ∧ l.text = d.text ∧
    l.negative = d.unsigned.negative ∧ l.magnitude = d.magnitude ∧
    (l.isInteger = true ↔ d.PlainDigits) := by
  rw [Decimal.text, Decimal.PlainDigits]
  by_cases hc : d.coefficient = 0
  · have he : d.exponent = 0 := (d.normal.resolve_left (by simp [hc])).2
    refine ⟨⟨false, [unit '0'], none, none⟩, ⟨Or.inl rfl, by simp, by simp⟩, ?_, ?_, ?_, ?_⟩
    · rw [if_pos hc]
      rfl
    · simp [Decimal.unsigned, hc]
    · rw [Decimal.magnitude, hc, Nat.cast_zero, zero_mul, NumberLiteral.magnitude]
      simp [digitsValue, unit]
    · simp [NumberLiteral.isInteger, he, hc, digitsText]
  · obtain ⟨l, hv, hn, ht, hx, hi⟩ := exists_literal_magnitudeText hc d.exponent
    have hm : l.magnitude = d.magnitude := by
      rw [← NumberLiteral.textValue_text hv hn hx, ht, textValue_magnitudeText hc, Decimal.magnitude]
    refine ⟨{ l with negative := d.negative }, ⟨hv.integer, hv.fraction, hv.exponent⟩, ?_, ?_, hm, hi⟩
    · have hunsigned : l.text = l.integer ++ (l.fractionText ++ l.exponentText) := by
        rw [NumberLiteral.text, hn]
        rfl
      rw [if_neg hc, ← ht, hunsigned, NumberLiteral.text]
      cases d.negative <;> rfl
    · simp [Decimal.unsigned, hc]

/-- A double is read back from its text, but for the sign of zero. -/
theorem Decimal.IsDouble.value_literal {d : Decimal} (h : d.IsDouble) {l : NumberLiteral}
    (hn : l.negative = d.unsigned.negative) (hm : l.magnitude = d.magnitude) :
    l.value = .finite d.unsigned := by
  have hd := h.unsigned
  rw [Decimal.IsDouble, Decimal.magnitude_unsigned] at hd
  rw [NumberLiteral.value, hn, hm, hd]

end Texts

end OpenWop.Js
