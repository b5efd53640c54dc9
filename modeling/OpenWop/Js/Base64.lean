import OpenWop.Js.Text
import Mathlib.Tactic.IntervalCases

/-!
# Base64

`Buffer` writes bytes in the standard alphabet with padding. It reads both alphabets, skips what
is in neither, and stops at the first `=`. Nothing here names a program.
-/

namespace OpenWop.Js

section Alphabet

/-- The unit of a six-bit value. -/
def base64Unit (n : Nat) : UInt16 :=
  if n < 26 then UInt16.ofNat (65 + n)
  else if n < 52 then UInt16.ofNat (71 + n)
  else if n < 62 then UInt16.ofNat (n - 4)
  else if n = 62 then 43
  else 47

/-- The six-bit value of a unit, in the standard alphabet or the one for URLs. -/
def base64Value (u : UInt16) : Option Nat :=
  if 65 ≤ u ∧ u ≤ 90 then some (u.toNat - 65)
  else if 97 ≤ u ∧ u ≤ 122 then some (u.toNat - 71)
  else if 48 ≤ u ∧ u ≤ 57 then some (u.toNat + 4)
  else if u = 43 ∨ u = 45 then some 62
  else if u = 47 ∨ u = 95 then some 63
  else none

theorem base64Value_base64Unit {n : Nat} (h : n < 64) : base64Value (base64Unit n) = some n := by
  interval_cases n <;> rfl

theorem base64Unit_ne_padding {n : Nat} (h : n < 64) : base64Unit n ≠ unit '=' := by
  interval_cases n <;> decide

end Alphabet

/-- `buffer.toString('base64')`. -/
def base64Text : List UInt8 → JsString
  | a :: b :: c :: rest =>
    base64Unit (a.toNat / 4) :: base64Unit (a.toNat % 4 * 16 + b.toNat / 16) ::
      base64Unit (b.toNat % 16 * 4 + c.toNat / 64) :: base64Unit (c.toNat % 64) :: base64Text rest
  | [a, b] =>
    [base64Unit (a.toNat / 4), base64Unit (a.toNat % 4 * 16 + b.toNat / 16),
      base64Unit (b.toNat % 16 * 4), unit '=']
  | [a] => [base64Unit (a.toNat / 4), base64Unit (a.toNat % 4 * 16), unit '=', unit '=']
  | [] => []

/-- The whole bytes in a sequence of six-bit values. -/
def bytesOfSextets : List Nat → List UInt8
  | a :: b :: c :: d :: rest =>
    UInt8.ofNat (a * 4 + b / 16) :: UInt8.ofNat (b % 16 * 16 + c / 4) ::
      UInt8.ofNat (c % 4 * 64 + d) :: bytesOfSextets rest
  | [a, b, c] => [UInt8.ofNat (a * 4 + b / 16), UInt8.ofNat (b % 16 * 16 + c / 4)]
  | [a, b] => [UInt8.ofNat (a * 4 + b / 16)]
  | _ => []

/-- The six-bit values before the first `=`. -/
def sextets (s : JsString) : List Nat := (s.takeWhile (· ≠ unit '=')).filterMap base64Value

/-- `Buffer.from(s, 'base64')`. -/
def bytesOfBase64 (s : JsString) : List UInt8 := bytesOfSextets (sextets s)

section RoundTrip

theorem sextets_cons {n : Nat} (h : n < 64) (s : JsString) :
    sextets (base64Unit n :: s) = n :: sextets s := by
  rw [sextets, List.takeWhile_cons, if_pos (by simpa using base64Unit_ne_padding h),
    List.filterMap_cons, base64Value_base64Unit h]
  rfl

theorem sextets_padding (s : JsString) : sextets (unit '=' :: s) = [] := by
  rw [sextets, List.takeWhile_cons, if_neg (by simp), List.filterMap_nil]

theorem ofNat_eq_of_toNat {b : UInt8} {n : Nat} (h : n = b.toNat) : UInt8.ofNat n = b := by
  rw [h, UInt8.ofNat_toNat]

/-- The bytes are read back from their text. -/
@[simp] theorem bytesOfBase64_base64Text (bytes : List UInt8) :
    bytesOfBase64 (base64Text bytes) = bytes := by
  rw [bytesOfBase64]
  induction bytes using base64Text.induct with
  | case1 a b c rest ih =>
    have ha := a.toNat_lt
    have hb := b.toNat_lt
    have hc := c.toNat_lt
    rw [base64Text, sextets_cons (by omega), sextets_cons (by omega), sextets_cons (by omega),
      sextets_cons (by omega), bytesOfSextets, ih, ofNat_eq_of_toNat (b := a) (by omega),
      ofNat_eq_of_toNat (b := b) (by omega), ofNat_eq_of_toNat (b := c) (by omega)]
  | case2 a b =>
    have ha := a.toNat_lt
    have hb := b.toNat_lt
    rw [base64Text, sextets_cons (by omega), sextets_cons (by omega), sextets_cons (by omega),
      sextets_padding, bytesOfSextets, ofNat_eq_of_toNat (b := a) (by omega),
      ofNat_eq_of_toNat (b := b) (by omega)]
  | case3 a =>
    have ha := a.toNat_lt
    rw [base64Text, sextets_cons (by omega), sextets_cons (by omega), sextets_padding,
      bytesOfSextets, ofNat_eq_of_toNat (b := a) (by omega)]
  | case4 => rfl

end RoundTrip

section Units

/-- What is neither in the alphabet nor the padding is not in the text. -/
theorem not_mem_base64Text {v : UInt16} (hv : ∀ n < 64, v ≠ base64Unit n) (hp : v ≠ unit '=')
    (bytes : List UInt8) : v ∉ base64Text bytes := by
  induction bytes using base64Text.induct with
  | case1 a b c rest ih =>
    have ha := a.toNat_lt
    have hb := b.toNat_lt
    have hc := c.toNat_lt
    rw [base64Text]
    simp only [List.mem_cons, not_or]
    exact ⟨hv _ (by omega), hv _ (by omega), hv _ (by omega), hv _ (by omega), ih⟩
  | case2 a b =>
    have ha := a.toNat_lt
    have hb := b.toNat_lt
    rw [base64Text]
    simp only [List.mem_cons, not_or]
    exact ⟨hv _ (by omega), hv _ (by omega), hv _ (by omega), hp, List.not_mem_nil⟩
  | case3 a =>
    have ha := a.toNat_lt
    rw [base64Text]
    simp only [List.mem_cons, not_or]
    exact ⟨hv _ (by omega), hv _ (by omega), hp, hp, List.not_mem_nil⟩
  | case4 => exact List.not_mem_nil

theorem space_not_mem_base64Text (bytes : List UInt8) : unit ' ' ∉ base64Text bytes :=
  not_mem_base64Text (fun n hn => by interval_cases n <;> decide) (by decide) bytes

end Units

section Url

/-- The unit of the alphabet for URLs. -/
def base64UrlUnit (u : UInt16) : UInt16 :=
  if u = unit '+' then unit '-' else if u = unit '/' then unit '_' else u

/-- `buffer.toString('base64url')`. -/
def base64UrlText (bytes : List UInt8) : JsString :=
  ((base64Text bytes).takeWhile (· ≠ unit '=')).map base64UrlUnit

theorem base64Value_base64UrlUnit (u : UInt16) : base64Value (base64UrlUnit u) = base64Value u := by
  rw [base64UrlUnit]
  split_ifs with hplus hslash
  · subst hplus
    rfl
  · subst hslash
    rfl
  · rfl

theorem base64UrlUnit_ne_padding {u : UInt16} (h : u ≠ unit '=') : base64UrlUnit u ≠ unit '=' := by
  rw [base64UrlUnit]
  split_ifs
  · decide
  · decide
  · exact h

/-- The bytes are read back from the text for URLs. -/
@[simp] theorem bytesOfBase64_base64UrlText (bytes : List UInt8) :
    bytesOfBase64 (base64UrlText bytes) = bytes := by
  have hall : (base64UrlText bytes).takeWhile (· ≠ unit '=') = base64UrlText bytes := by
    refine List.takeWhile_eq_self_iff.mpr fun v hv => ?_
    obtain ⟨u, hu, rfl⟩ := List.mem_map.mp hv
    have hne : decide (u ≠ unit '=') = true :=
      List.mem_takeWhile_imp (p := fun u => decide (u ≠ unit '=')) hu
    exact decide_eq_true (base64UrlUnit_ne_padding (of_decide_eq_true hne))
  have hsextets : sextets (base64UrlText bytes) = sextets (base64Text bytes) := by
    rw [sextets, sextets, hall, base64UrlText, List.filterMap_map]
    exact congrArg (List.filterMap · _) (funext base64Value_base64UrlUnit)
  rw [bytesOfBase64, hsextets]
  exact bytesOfBase64_base64Text bytes

end Url

end OpenWop.Js
