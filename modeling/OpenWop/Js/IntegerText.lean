import OpenWop.Js.NumberOrder

/-!
# Integers as text

A decimal integer without needless zeros is the text of its value. A Number is written with it
where the value is below `10 ^ 21` and the Number is that value by its shortest decimal.
-/

namespace OpenWop.Js

section Digits

variable {s : JsString}

theorem digitsValue_eq_ofDigits (s : JsString) :
    digitsValue s = Nat.ofDigits 10 (s.reverse.map fun u => u.toNat - 48) := by
  induction s using List.reverseRecOn with
  | nil => rfl
  | append_singleton s u ih =>
    rw [digitsValue_concat, ih, List.reverse_append, List.reverse_singleton, List.singleton_append,
      List.map_cons, Nat.ofDigits_cons]
    omega

theorem toNat_of_isDigit {u : UInt16} (h : isDigit u = true) :
    u.toNat - 48 < 10 ∧ UInt16.ofNat (48 + (u.toNat - 48)) = u := by
  simp only [isDigit, Bool.and_eq_true, decide_eq_true_eq, UInt16.le_iff_toNat_le] at h
  have hlo : 48 ≤ u.toNat := h.1
  have hhi : u.toNat ≤ 57 := h.2
  refine ⟨by omega, ?_⟩
  rw [Nat.add_sub_cancel' hlo, UInt16.ofNat_toNat]

theorem IsInteger.isDigit (hs : IsInteger s) : ∀ u ∈ s, isDigit u = true := by
  rcases hs with rfl | ⟨hdigits, -⟩
  · exact List.forall_mem_singleton.mpr rfl
  · exact hdigits.2

/-- An integer is the text of its value. -/
theorem decimal_digitsValue (hs : IsInteger s) : decimal (digitsValue s) = s := by
  rcases hs with rfl | ⟨⟨hne, hdigits⟩, hhead⟩
  · rfl
  have hback : ∀ u ∈ s, UInt16.ofNat (48 + (u.toNat - 48)) = u := fun u hu =>
    (toNat_of_isDigit (hdigits u hu)).2
  have hlt : ∀ d ∈ s.reverse.map fun u => u.toNat - 48, d < 10 := by
    intro d hd
    obtain ⟨u, hu, rfl⟩ := List.mem_map.mp hd
    exact (toNat_of_isDigit (hdigits u (List.mem_reverse.mp hu))).1
  have hlast : ∀ h : (s.reverse.map fun u => u.toNat - 48) ≠ [],
      (s.reverse.map fun u => u.toNat - 48).getLast h ≠ 0 := by
    obtain ⟨u, rest, rfl⟩ := List.exists_cons_of_ne_nil hne
    intro _ hzero
    rw [List.getLast_map, List.getLast_reverse, List.head_cons] at hzero
    · have hu := hback u (List.mem_cons_self ..)
      rw [hzero] at hu
      exact hhead (congrArg some hu.symm)
  have hdig := Nat.digits_ofDigits 10 (by norm_num) _ hlt hlast
  have hmap : ((s.reverse.map fun u => u.toNat - 48).map fun d => UInt16.ofNat (48 + d)).reverse =
      s := by
    rw [List.map_map, ← List.map_reverse, List.reverse_reverse]
    exact (List.map_congr_left hback).trans (List.map_id s)
  have hlen : 1 - s.length = 0 := by
    have := List.length_pos_iff.mpr hne
    omega
  rw [digitsValue_eq_ofDigits, decimal, hdig, hmap, List.rightpad, hlen, List.replicate_zero,
    List.append_nil]

end Digits

section Texts

theorem ofNat_parts (n : ℕ) : 0 ≤ (Decimal.ofNat n).exponent ∧
    (Decimal.ofNat n).coefficient * 10 ^ (Decimal.ofNat n).exponent.toNat = n := by
  have h := JsNumber.toNat?_ofNat n
  rw [JsNumber.ofNat, JsNumber.toNat?, Decimal.toNat?] at h
  split at h
  · next hn => exact ⟨hn.2, Option.some.inj h⟩
  · cases h

theorem length_digitsText (n : ℕ) : (digitsText n).length = (Nat.digits 10 n).length := by
  rw [digitsText, List.length_map, List.length_reverse]

/-- The integers below `10 ^ 21` are written without an exponent. -/
theorem plainDigits_ofNat_iff {n : ℕ} : (Decimal.ofNat n).PlainDigits ↔ n < 10 ^ 21 := by
  by_cases hn : n = 0
  · subst hn
    exact iff_of_true (by simp [Decimal.PlainDigits, Decimal.ofNat, digitsText]) (by norm_num)
  obtain ⟨hnonneg, hvalue⟩ := ofNat_parts n
  rw [Decimal.PlainDigits, length_digitsText]
  obtain ⟨e, he⟩ := Int.eq_ofNat_of_zero_le hnonneg
  rw [he] at hvalue ⊢
  generalize (Decimal.ofNat n).coefficient = c at hvalue
  rw [Int.toNat_natCast] at hvalue
  subst hvalue
  have hc : c ≠ 0 := left_ne_zero_of_mul hn
  constructor
  · rintro ⟨-, hlen⟩
    have hlen : (Nat.digits 10 c).length + e ≤ 21 := by omega
    calc c * 10 ^ e < 10 ^ (Nat.digits 10 c).length * 10 ^ e :=
          Nat.mul_lt_mul_of_pos_right (Nat.lt_base_pow_length_digits (by norm_num)) (by positivity)
      _ = 10 ^ ((Nat.digits 10 c).length + e) := (pow_add ..).symm
      _ ≤ 10 ^ 21 := Nat.pow_le_pow_right (by norm_num) hlen
  · intro hlt
    have hle : 10 ^ ((Nat.digits 10 c).length + e) < 10 ^ 22 :=
      calc 10 ^ ((Nat.digits 10 c).length + e) = 10 ^ (Nat.digits 10 c).length * 10 ^ e := pow_add ..
        _ ≤ 10 * c * 10 ^ e := Nat.mul_le_mul_right _
          (Nat.base_pow_length_digits_le 10 c (by norm_num) hc)
        _ = 10 * (c * 10 ^ e) := mul_assoc ..
        _ < 10 * 10 ^ 21 := Nat.mul_lt_mul_of_pos_left hlt (by norm_num)
        _ = 10 ^ 22 := by norm_num
    have hlen := (Nat.pow_lt_pow_iff_right (by norm_num)).mp hle
    exact ⟨Int.natCast_nonneg e, by omega⟩

/-- A literal that is written with digits only is an integer. -/
theorem NumberLiteral.isInteger_iff {l : NumberLiteral} (h : l.Valid) :
    l.isInteger = true ∧ l.negative = false ↔ ∀ u ∈ l.text, isDigit u = true := by
  obtain ⟨negative, integer, fraction, exponent⟩ := l
  constructor
  · rintro ⟨hi, rfl⟩
    obtain ⟨hf, hx⟩ : fraction = none ∧ exponent = none := by
      simpa [NumberLiteral.isInteger] using hi
    subst hf hx
    simpa [NumberLiteral.text, NumberLiteral.fractionText, NumberLiteral.exponentText] using
      h.integer.isDigit
  · intro hall
    cases negative with
    | true => exact absurd (hall (unit '-') (by simp [NumberLiteral.text])) (by decide)
    | false =>
      cases fraction with
      | some f =>
        exact absurd (hall (unit '.') (by simp [NumberLiteral.text, NumberLiteral.fractionText]))
          (by decide)
      | none =>
        cases exponent with
        | none => exact ⟨rfl, rfl⟩
        | some x =>
          have hm := hall x.marker (by
            simp [NumberLiteral.text, NumberLiteral.exponentText, ExponentPart.text])
          rcases (h.exponent x rfl).marker with hx | hx
          · rw [hx] at hm
            exact absurd hm (by decide)
          · rw [hx] at hm
            exact absurd hm (by decide)

theorem NumberLiteral.of_isInteger {l : NumberLiteral} (hi : l.isInteger = true)
    (hn : l.negative = false) : l.text = l.integer ∧ l.magnitude = digitsValue l.integer := by
  obtain ⟨negative, integer, fraction, exponent⟩ := l
  obtain ⟨hf, hx⟩ : fraction = none ∧ exponent = none := by
    simpa [NumberLiteral.isInteger] using hi
  obtain rfl : negative = false := hn
  subst hf hx
  exact ⟨by simp [NumberLiteral.text, NumberLiteral.fractionText, NumberLiteral.exponentText],
    by simp [NumberLiteral.magnitude]⟩

theorem Decimal.plainDigits_unsigned {d : Decimal} : d.unsigned.PlainDigits ↔ d.PlainDigits := by
  unfold Decimal.unsigned
  split <;> rfl

/-- A decimal is written with digits only when it is a natural number below `10 ^ 21`, and then as
that number. -/
theorem Decimal.text_eq_iff {d : Decimal} {s : JsString} (hs : IsInteger s) :
    d.text = s ↔ d.unsigned = Decimal.ofNat (digitsValue s) ∧ digitsValue s < 10 ^ 21 := by
  obtain ⟨l, hv, ht, hn, hm, hplain⟩ := d.exists_literal
  constructor
  · rintro rfl
    obtain ⟨hi, hneg⟩ := (NumberLiteral.isInteger_iff hv).mpr (ht ▸ hs.isDigit)
    obtain ⟨htext, hmag⟩ := NumberLiteral.of_isInteger hi hneg
    have hd : d.unsigned = Decimal.ofNat (digitsValue d.text) := by
      apply JsNumber.decimal_eq
      · rw [← hn, hneg, JsNumber.negative_ofNat]
      · rw [Decimal.magnitude_unsigned, ← hm, hmag, ← ht, htext, JsNumber.magnitude_ofNat]
    refine ⟨hd, plainDigits_ofNat_iff.mp ?_⟩
    rw [← hd]
    exact Decimal.plainDigits_unsigned.mpr (hplain.mp hi)
  · rintro ⟨hd, hlt⟩
    have hi := hplain.mpr (Decimal.plainDigits_unsigned.mp (hd ▸ plainDigits_ofNat_iff.mpr hlt))
    rw [hd, JsNumber.negative_ofNat] at hn
    obtain ⟨htext, hmag⟩ := NumberLiteral.of_isInteger hi hn
    have hvalue : digitsValue l.integer = digitsValue s := by
      rw [← Decimal.magnitude_unsigned, hd, JsNumber.magnitude_ofNat, hmag] at hm
      exact_mod_cast hm
    rw [← ht, htext, ← decimal_digitsValue hv.integer, hvalue, decimal_digitsValue hs]

/-- An integer is read as a Number that is written with it where it is below `10 ^ 21` and the
shortest decimal of a double. -/
theorem text_nearestNumber_iff {s : JsString} (hs : IsInteger s) :
    (nearestNumber false (digitsValue s)).text = s ↔
      digitsValue s < 10 ^ 21 ∧ (Decimal.ofNat (digitsValue s)).IsDouble := by
  rw [Decimal.IsDouble, JsNumber.negative_ofNat, JsNumber.magnitude_ofNat]
  cases hnear : nearestNumber false (digitsValue s : ℚ) with
  | nan =>
    refine iff_of_false (fun htext => ?_) (by simp)
    have hN := hs.isDigit (unit 'N') (by rw [← htext]; decide)
    exact absurd hN (by decide)
  | infinity negative =>
    refine iff_of_false (fun htext => ?_) (by simp)
    have hI := hs.isDigit (unit 'I') (by rw [← htext]; cases negative <;> decide)
    exact absurd hI (by decide)
  | finite d =>
    have hsign : d.negative = false := by
      unfold nearestNumber at hnear
      split at hnear
      · cases hnear
      · cases hnear
        exact Decimal.negative_ofParts ..
    have hunsigned : d.unsigned = d := by
      unfold Decimal.unsigned
      split
      · rw [← hsign]
      · rfl
    rw [JsNumber.text, Decimal.text_eq_iff hs, hunsigned, JsNumber.finite.injEq, and_comm]

/-- So is every integer below `2 ^ 53`. -/
theorem isDouble_ofNat {n : ℕ} (h : n < 2 ^ 53) : (Decimal.ofNat n).IsDouble := by
  rw [Decimal.IsDouble, JsNumber.negative_ofNat, JsNumber.magnitude_ofNat,
    JsNumber.nearestNumber_natCast h, JsNumber.ofNat]

/-- It is read back from its text. -/
theorem stringToNumber_ofNat_text {n : ℕ} (h : n < 2 ^ 53) :
    stringToNumber (JsNumber.ofNat n).text = .ofNat n := by
  have hunsigned : (Decimal.ofNat n).unsigned = Decimal.ofNat n := by
    have hsign : (Decimal.ofNat n).negative = false := JsNumber.negative_ofNat n
    rw [Decimal.unsigned]
    split
    · rw [← hsign]
    · rfl
  rw [JsNumber.ofNat, JsNumber.text, stringToNumber_text (isDouble_ofNat h), hunsigned]

end Texts

end OpenWop.Js
