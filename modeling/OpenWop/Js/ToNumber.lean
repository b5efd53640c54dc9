import OpenWop.Js.NumberLiteral

/-!
# Strings as Numbers

`Number(s)` for a string, and the subtraction and the comparison of Numbers. The text of
a Number is read back as the Number.
-/

namespace OpenWop.Js

section Arithmetic

/-- The value of a finite Number. -/
def Decimal.value (d : Decimal) : ℚ := if d.negative then -d.magnitude else d.magnitude

/-- The value of the double that a decimal stands for. -/
def Decimal.double (d : Decimal) : ℚ :=
  if d.negative then -binary64.round d.magnitude else binary64.round d.magnitude

namespace JsNumber

/-- The Number with the other sign. -/
def neg : JsNumber → JsNumber
  | .nan => .nan
  | .infinity negative => .infinity !negative
  | .finite d => .finite ⟨!d.negative, d.coefficient, d.exponent, d.normal⟩

/-- `Math.abs(x)`. -/
def abs : JsNumber → JsNumber
  | .nan => .nan
  | .infinity _ => .infinity false
  | .finite d => .finite ⟨false, d.coefficient, d.exponent, d.normal⟩

/-- `x - y`. -/
def sub : JsNumber → JsNumber → JsNumber
  | .finite d, .finite e =>
    let q := d.double - e.double
    if q = 0 then .finite ⟨d.negative && !e.negative, 0, 0, Decimal.zero_normal⟩
    else nearestNumber (decide (q < 0)) |q|
  | .infinity negative, .finite _ => .infinity negative
  | .finite _, .infinity negative => .infinity !negative
  | .infinity negative, .infinity negative' =>
    if negative = negative' then .nan else .infinity negative
  | _, _ => .nan

/-- `x < y`. -/
def lt : JsNumber → JsNumber → Bool
  | .finite d, .finite e => decide (d.value < e.value)
  | .infinity negative, .finite _ => negative
  | .finite _, .infinity negative => !negative
  | .infinity negative, .infinity negative' => negative && !negative'
  | _, _ => false

/-- `x <= y`. -/
def le : JsNumber → JsNumber → Bool
  | .nan, _ | _, .nan => false
  | x, y => !lt y x

/-- `Number.isInteger(x)`. -/
def isInteger : JsNumber → Bool
  | .finite d => decide (0 ≤ d.exponent)
  | _ => false

end JsNumber

end Arithmetic

section Literals

/-- The value of a digit of some radix. -/
def digitValue (u : UInt16) : Nat :=
  if isDigit u then u.toNat - 48
  else if 97 ≤ u ∧ u ≤ 122 then u.toNat - 87
  else if 65 ≤ u ∧ u ≤ 90 then u.toNat - 55
  else 36

/-- The radix a prefix announces, and what follows it. -/
def radixLiteral : JsString → Option (Nat × JsString)
  | u :: v :: digits =>
    if u ≠ unit '0' then none
    else if v = unit 'x' ∨ v = unit 'X' then some (16, digits)
    else if v = unit 'o' ∨ v = unit 'O' then some (8, digits)
    else if v = unit 'b' ∨ v = unit 'B' then some (2, digits)
    else none
  | _ => none

def radixNumber (radix : Nat) (digits : JsString) : JsNumber :=
  if digits ≠ [] ∧ digits.all (digitValue · < radix) then
    nearestNumber false (digits.foldl (fun n u => n * radix + digitValue u) 0 : Nat)
  else .nan

/-- Whether a minus stands at the front, and what follows a sign. -/
def takeSign : JsString → Bool × JsString
  | [] => (false, [])
  | u :: s =>
    if u = unit '-' then (true, s) else if u = unit '+' then (false, s) else (false, u :: s)

/-- The exponent at the end of a literal. -/
def exponentAt : JsString → Option Int
  | [] => some 0
  | u :: s =>
    if u = unit 'e' ∨ u = unit 'E' then
      if (takeSign s).2 ≠ [] ∧ (takeSign s).2.all isDigit then
        some (if (takeSign s).1 then -(digitsValue (takeSign s).2 : Int)
          else digitsValue (takeSign s).2)
      else none
    else none

/-- The fraction at the front, and what follows it. -/
def takeFraction : JsString → JsString × JsString
  | [] => ([], [])
  | u :: s => if u = unit '.' then (s.takeWhile isDigit, s.dropWhile isDigit) else ([], u :: s)

/-- A decimal literal without its sign. -/
def decimalNumber (negative : Bool) (s : JsString) : JsNumber :=
  if s = js "Infinity" then .infinity negative
  else
    let integer := s.takeWhile isDigit
    let (fraction, rest) := takeFraction (s.dropWhile isDigit)
    if integer ++ fraction = [] then .nan
    else (exponentAt rest).elim .nan fun exponent =>
      nearestNumber negative (digitsValue (integer ++ fraction) * 10 ^ (exponent - fraction.length))

/-- `Number(s)`. -/
def stringToNumber (s : JsString) : JsNumber :=
  let text := trim s
  if text = [] then .ofNat 0
  else (radixLiteral text).elim (decimalNumber (takeSign text).1 (takeSign text).2)
    fun literal => radixNumber literal.1 literal.2

end Literals

section Reading

theorem isDigit_iff {u : UInt16} : isDigit u = true ↔ 48 ≤ u.toNat ∧ u.toNat ≤ 57 := by
  simp [isDigit, UInt16.le_iff_toNat_le]

theorem takeSign_of_digit {u : UInt16} {s : JsString} (h : isDigit u = true) :
    takeSign (u :: s) = (false, u :: s) := by
  rw [isDigit_iff] at h
  have hm : u ≠ unit '-' := by
    rintro rfl
    revert h
    decide
  have hp : u ≠ unit '+' := by
    rintro rfl
    revert h
    decide
  rw [takeSign, if_neg hm, if_neg hp]

theorem exponentAt_text {x : ExponentPart} (h : x.Valid) : exponentAt x.text = some x.value := by
  obtain ⟨marker, sign, digits⟩ := x
  have hsigned : takeSign (sign.toList ++ digits) = (decide (sign = some (unit '-')), digits) := by
    cases sign with
    | none =>
      obtain ⟨u, rest, hd⟩ := List.exists_cons_of_ne_nil h.digits.1
      dsimp only at hd
      subst hd
      exact takeSign_of_digit (h.digits.2 u (List.mem_cons_self ..))
    | some u =>
      rcases h.sign u rfl with rfl | rfl
      · rfl
      · rfl
  have hall : digits.all isDigit = true := List.all_eq_true.mpr h.digits.2
  rw [ExponentPart.text, exponentAt, if_pos h.marker, hsigned]
  dsimp only
  rw [if_pos ⟨h.digits.1, hall⟩, ExponentPart.value]
  simp

theorem not_isDigit_marker {x : ExponentPart} (h : x.Valid) : isDigit x.marker = false := by
  rcases h.marker with hm | hm
  · rw [hm]
    rfl
  · rw [hm]
    rfl

namespace NumberLiteral

variable {l : NumberLiteral}

theorem exponentAt_exponentText (h : l.Valid) :
    exponentAt l.exponentText = some ((l.exponent.map ExponentPart.value).getD 0) := by
  cases hx : l.exponent with
  | none => simp [exponentText, hx, exponentAt]
  | some x => simp [exponentText, hx, exponentAt_text (h.exponent x hx)]

/-- What follows the digits of a literal does not begin with a digit. -/
theorem dropWhile_exponentText (h : l.Valid) :
    l.exponentText.takeWhile isDigit = [] ∧ l.exponentText.dropWhile isDigit = l.exponentText := by
  cases hx : l.exponent with
  | none => simp [exponentText, hx]
  | some x =>
    have hm := not_isDigit_marker (h.exponent x hx)
    simp [exponentText, hx, ExponentPart.text, hm]

theorem takeFraction_text (h : l.Valid) :
    takeFraction (l.fractionText ++ l.exponentText) = (l.fraction.getD [], l.exponentText) := by
  cases hf : l.fraction with
  | none =>
    rw [fractionText, hf]
    cases hx : l.exponent with
    | none => simp [exponentText, hx, takeFraction]
    | some x =>
      have hm : x.marker ≠ unit '.' := by
        rcases (h.exponent x hx).marker with hm | hm
        · rw [hm]
          decide
        · rw [hm]
          decide
      simp [exponentText, hx, takeFraction, ExponentPart.text, hm]
  | some f =>
    have hd := (h.fraction f hf).2
    obtain ⟨htake, hdrop⟩ := dropWhile_exponentText h
    simp only [fractionText, hf, Option.map_some, Option.getD_some, List.cons_append, takeFraction,
      if_pos, List.takeWhile_append_of_pos hd, List.dropWhile_append_of_pos hd, htake, hdrop,
      List.append_nil]

theorem takeWhile_integer (h : l.Valid) :
    (l.integer ++ (l.fractionText ++ l.exponentText)).takeWhile isDigit = l.integer ∧
      (l.integer ++ (l.fractionText ++ l.exponentText)).dropWhile isDigit =
        l.fractionText ++ l.exponentText := by
  have hi : ∀ u ∈ l.integer, isDigit u = true := by
    rcases h.integer with hz | hd
    · rw [hz]
      exact List.forall_mem_singleton.mpr rfl
    · exact hd.1.2
  have hrest : (l.fractionText ++ l.exponentText).takeWhile isDigit = [] ∧
      (l.fractionText ++ l.exponentText).dropWhile isDigit = l.fractionText ++ l.exponentText := by
    cases hf : l.fraction with
    | none =>
      simp only [fractionText, hf, Option.map_none, Option.getD_none, List.nil_append]
      exact dropWhile_exponentText h
    | some f =>
      have hp : isDigit (unit '.') = false := rfl
      simp [fractionText, hf, hp]
  rw [List.takeWhile_append_of_pos hi, List.dropWhile_append_of_pos hi, hrest.1, hrest.2,
    List.append_nil]
  exact ⟨rfl, rfl⟩

/-- The literal without its sign begins with a digit. -/
theorem exists_digit_head (h : l.Valid) : ∃ u rest,
    l.integer ++ (l.fractionText ++ l.exponentText) = u :: rest ∧ isDigit u = true := by
  rcases h.integer with hz | hd
  · exact ⟨_, _, by rw [hz]; rfl, rfl⟩
  · obtain ⟨u, rest, hu⟩ := List.exists_cons_of_ne_nil hd.1.1
    exact ⟨u, _, by rw [hu]; rfl, hd.1.2 u (by simp [hu])⟩

theorem decimalNumber_text (h : l.Valid) :
    decimalNumber l.negative (l.integer ++ (l.fractionText ++ l.exponentText)) = l.value := by
  obtain ⟨u, rest, hu, hd⟩ := exists_digit_head h
  have hinf : l.integer ++ (l.fractionText ++ l.exponentText) ≠ js "Infinity" := by
    rw [hu]
    intro he
    rw [(List.cons.inj he).1] at hd
    revert hd
    decide
  have hne : l.integer ++ l.fraction.getD [] ≠ [] := by
    rcases h.integer with hz | hd
    · simp [hz]
    · simp [hd.1.1]
  rw [decimalNumber, if_neg hinf, (takeWhile_integer h).1, (takeWhile_integer h).2,
    takeFraction_text h]
  dsimp only
  rw [if_neg hne, exponentAt_exponentText h]
  rfl

theorem takeSign_text (h : l.Valid) :
    takeSign l.text = (l.negative, l.integer ++ (l.fractionText ++ l.exponentText)) := by
  obtain ⟨u, rest, hu, hd⟩ := exists_digit_head h
  rw [text]
  cases l.negative with
  | false =>
    simp only [Bool.false_eq_true, if_false, List.nil_append]
    rw [hu, takeSign_of_digit hd]
  | true => rfl

end NumberLiteral

theorem not_isTrimmed_of_isNumberUnit {u : UInt16} (h : isNumberUnit u = true) :
    isTrimmed u = false := by
  simp only [isNumberUnit, Bool.or_eq_true, decide_eq_true_eq, isDigit_iff, ← UInt16.toNat_inj] at h
  rw [← Bool.not_eq_true]
  intro ht
  simp only [isTrimmed, List.mem_cons, List.not_mem_nil, or_false, Bool.or_eq_true,
    Bool.and_eq_true, decide_eq_true_eq, UInt16.le_iff_toNat_le, ← UInt16.toNat_inj] at ht
  simp [unit] at h ht
  omega

theorem trim_of_forall {s : JsString} (h : ∀ u ∈ s, isTrimmed u = false) : trim s = s := by
  have hd : s.dropWhile isTrimmed = s := by
    cases s with
    | nil => rfl
    | cons u rest => rw [List.dropWhile_cons_of_neg (by simp [h u (List.mem_cons_self ..)])]
  rw [trim, hd, List.rdropWhile_eq_self_iff]
  intro hne
  simp [h _ (List.getLast_mem hne)]

/-- The text of a Number announces no radix. -/
theorem radixLiteral_of_isNumberUnit {s : JsString} (h : ∀ u ∈ s, isNumberUnit u = true) :
    radixLiteral s = none := by
  match s with
  | [] => rfl
  | [_] => rfl
  | u :: v :: digits =>
    have hv : isNumberUnit v = true := h v (by simp)
    have hne {c : UInt16} (hc : isNumberUnit c = false) : v ≠ c := by
      rintro rfl
      rw [hc] at hv
      cases hv
    rw [radixLiteral, if_neg (not_or.mpr ⟨hne rfl, hne rfl⟩),
      if_neg (not_or.mpr ⟨hne rfl, hne rfl⟩), if_neg (not_or.mpr ⟨hne rfl, hne rfl⟩), ite_self]

/-- `Number(String(x))` is `x`, but for the sign of zero. -/
theorem stringToNumber_text {d : Decimal} (h : d.IsDouble) :
    stringToNumber d.text = .finite d.unsigned := by
  obtain ⟨hne, hunits⟩ := d.isNumberUnit_text
  obtain ⟨l, hv, ht, hn, hm, _⟩ := d.exists_literal
  have htrim : trim d.text = d.text :=
    trim_of_forall fun u hu => not_isTrimmed_of_isNumberUnit (hunits u hu)
  rw [stringToNumber, htrim, if_neg hne, radixLiteral_of_isNumberUnit hunits, ← ht]
  simp only [Option.elim, NumberLiteral.takeSign_text hv]
  rw [NumberLiteral.decimalNumber_text hv, h.value_literal hn hm]

end Reading

end OpenWop.Js
