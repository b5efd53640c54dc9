import Mathlib.Tactic.IntervalCases
import OpenWop.Js.Quote

/-!
# UTF-8 bytes and hexadecimal text

The bytes `Buffer.from(s, 'utf8')` holds for a string, a lone surrogate giving the
bytes of U+FFFD, and the lower-case hexadecimal text of a byte sequence. Both are
injective, the first on well-formed strings.
-/

namespace OpenWop.Js

section Scalars

/-- The scalar value of a unit that is not half of a pair. -/
def unitScalar (u : UInt16) : Char :=
  if isSurrogate u then '\uFFFD' else Char.ofNat u.toNat

/-- The scalar value of a surrogate pair. -/
def pairScalar (u v : UInt16) : Char :=
  Char.ofNat (0x10000 + (u.toNat - 0xd800) * 0x400 + (v.toNat - 0xdc00))

/-- The scalar values of a string. -/
def scalars : JsString → List Char
  | [] => []
  | [u] => [unitScalar u]
  | u :: v :: rest =>
    if isHighSurrogate u && isLowSurrogate v then pairScalar u v :: scalars rest
    else unitScalar u :: scalars (v :: rest)

theorem isHighSurrogate_iff {u : UInt16} :
    isHighSurrogate u = true ↔ 0xd800 ≤ u.toNat ∧ u.toNat ≤ 0xdbff := by
  simp [isHighSurrogate, UInt16.le_iff_toNat_le]

theorem isLowSurrogate_iff {u : UInt16} :
    isLowSurrogate u = true ↔ 0xdc00 ≤ u.toNat ∧ u.toNat ≤ 0xdfff := by
  simp [isLowSurrogate, UInt16.le_iff_toNat_le]

theorem toNat_ofNat_of_valid {n : Nat} (h : n.isValidChar) : (Char.ofNat n).toNat = n := by
  rw [Char.ofNat, dif_pos h]
  rfl

/-- A unit outside the surrogates is the one unit of its scalar value. -/
theorem utf16Units_unitScalar {u : UInt16} (hh : isHighSurrogate u = false)
    (hl : isLowSurrogate u = false) : utf16Units (unitScalar u) = [u] := by
  have hn : ¬ (0xd800 ≤ u.toNat ∧ u.toNat ≤ 0xdfff) := by
    rw [← Bool.not_eq_true, isHighSurrogate_iff] at hh
    rw [← Bool.not_eq_true, isLowSurrogate_iff] at hl
    omega
  have hu := u.toNat_lt
  have hv : (Char.ofNat u.toNat).toNat = u.toNat :=
    toNat_ofNat_of_valid (by unfold Nat.isValidChar; omega)
  rw [unitScalar, isSurrogate, hh, hl, Bool.or_self, if_neg Bool.false_ne_true, utf16Units,
    hv, if_pos (by omega), UInt16.ofNat_toNat]

/-- A surrogate pair is the two units of its scalar value. -/
theorem utf16Units_pairScalar {u v : UInt16} (hu : isHighSurrogate u = true)
    (hv : isLowSurrogate v = true) : utf16Units (pairScalar u v) = [u, v] := by
  rw [isHighSurrogate_iff] at hu
  rw [isLowSurrogate_iff] at hv
  have hs : (pairScalar u v).toNat = 0x10000 + (u.toNat - 0xd800) * 0x400 + (v.toNat - 0xdc00) :=
    toNat_ofNat_of_valid (by unfold Nat.isValidChar; omega)
  rw [utf16Units, hs, if_neg (by omega)]
  have hhi : 0xd800 + (0x10000 + (u.toNat - 0xd800) * 0x400 + (v.toNat - 0xdc00) - 0x10000) / 0x400 =
      u.toNat := by omega
  have hlo : 0xdc00 + (0x10000 + (u.toNat - 0xd800) * 0x400 + (v.toNat - 0xdc00) - 0x10000) % 0x400 =
      v.toNat := by omega
  rw [hhi, hlo, UInt16.ofNat_toNat, UInt16.ofNat_toNat]

/-- A well-formed string is the units of its scalar values. -/
theorem flatMap_utf16Units_scalars {s : JsString} (h : isWellFormed s = true) :
    (scalars s).flatMap utf16Units = s := by
  fun_induction scalars s with
  | case1 => rfl
  | case2 u =>
    simp only [isWellFormed, Bool.and_eq_true, Bool.not_eq_true'] at h
    rw [List.flatMap_cons, utf16Units_unitScalar h.1 h.2]
    rfl
  | case3 u v rest hp ih =>
    rw [Bool.and_eq_true] at hp
    rw [isWellFormed, if_pos hp.1, Bool.and_eq_true] at h
    rw [List.flatMap_cons, utf16Units_pairScalar hp.1 hp.2, ih h.2]
    rfl
  | case4 u v rest hp ih =>
    have hu : isHighSurrogate u = false := by
      by_contra hu
      rw [Bool.not_eq_false] at hu
      rw [isWellFormed, if_pos hu, Bool.and_eq_true] at h
      exact hp (by rw [hu, h.1]; rfl)
    rw [isWellFormed, if_neg (by rw [hu]; exact Bool.false_ne_true), Bool.and_eq_true,
      Bool.not_eq_true'] at h
    rw [List.flatMap_cons, utf16Units_unitScalar hu h.1, ih h.2]
    rfl

end Scalars

section Bytes

/-- `Buffer.from(s, 'utf8')`. -/
def utf8 (s : JsString) : List UInt8 := (scalars s).flatMap String.utf8EncodeChar

theorem flatMap_utf8EncodeChar_inj {l l' : List Char}
    (h : l.flatMap String.utf8EncodeChar = l'.flatMap String.utf8EncodeChar) : l = l' := by
  have hb : l.utf8Encode = l'.utf8Encode := congrArg List.toByteArray h
  have hd : some l.toArray = some l'.toArray := by
    rw [← List.utf8Decode?_utf8Encode, ← List.utf8Decode?_utf8Encode, hb]
  simpa using hd

/-- Well-formed strings with the same bytes are equal. -/
theorem utf8_inj {s t : JsString} (hs : isWellFormed s = true) (ht : isWellFormed t = true)
    (h : utf8 s = utf8 t) : s = t := by
  rw [← flatMap_utf16Units_scalars hs, ← flatMap_utf16Units_scalars ht,
    flatMap_utf8EncodeChar_inj h]

end Bytes

section Hex

/-- The two hexadecimal digits of a byte. -/
def hexByte (b : UInt8) : JsString := [hexDigit (b.toNat / 16), hexDigit (b.toNat % 16)]

/-- `digest('hex')`. -/
def hexText (bytes : List UInt8) : JsString := bytes.flatMap hexByte

/-- A lower-case hexadecimal digit. -/
def isHexUnit (u : UInt16) : Bool := (48 ≤ u && u ≤ 57) || (97 ≤ u && u ≤ 102)

@[simp] theorem length_hexText (bytes : List UInt8) : (hexText bytes).length = 2 * bytes.length := by
  simp [hexText, hexByte, List.length_flatMap, Nat.mul_comm]

theorem isHexUnit_hexDigit {n : Nat} (h : n < 16) : isHexUnit (hexDigit n) = true := by
  interval_cases n <;> rfl

theorem hexDigit_inj {n m : Nat} (hn : n < 16) (hm : m < 16) (h : hexDigit n = hexDigit m) :
    n = m := by
  have hv := congrArg UInt16.toNat h
  unfold hexDigit at hv
  simp only [UInt16.toNat_ofNat'] at hv
  split at hv <;> split at hv <;> omega

theorem isHexUnit_of_mem_hexText {bytes : List UInt8} {u : UInt16} (h : u ∈ hexText bytes) :
    isHexUnit u = true := by
  obtain ⟨b, -, hb⟩ := List.mem_flatMap.mp h
  have hlt := b.toNat_lt
  simp only [hexByte, List.mem_cons, List.not_mem_nil, or_false] at hb
  obtain rfl | rfl := hb
  · exact isHexUnit_hexDigit (by omega)
  · exact isHexUnit_hexDigit (by omega)

theorem hexByte_inj {a b : UInt8} (h : hexByte a = hexByte b) : a = b := by
  have ha := a.toNat_lt
  have hb := b.toNat_lt
  simp only [hexByte, List.cons.injEq, and_true] at h
  have hhi := hexDigit_inj (by omega) (by omega) h.1
  have hlo := hexDigit_inj (by omega) (by omega) h.2
  apply UInt8.toNat_inj.mp
  omega

/-- Byte sequences with the same text are equal. -/
theorem hexText_inj {bytes bytes' : List UInt8} (h : hexText bytes = hexText bytes') :
    bytes = bytes' := by
  induction bytes generalizing bytes' with
  | nil =>
    cases bytes' with
    | nil => rfl
    | cons b rest => simp [hexText, hexByte] at h
  | cons a rest ih =>
    cases bytes' with
    | nil => simp [hexText, hexByte] at h
    | cons b rest' =>
      have hs := List.append_inj (h : hexByte a ++ hexText rest = hexByte b ++ hexText rest') rfl
      rw [hexByte_inj hs.1, ih hs.2]

end Hex

end OpenWop.Js
