import OpenWop.Js.Utf8

/-!
# Reading UTF-8

The decoder of the Encoding Standard, as `buf.toString('utf8')` runs it: one byte at a
time, with U+FFFD for each longest run of bytes that begins no scalar value. It reads
back what was encoded, and bytes it reads without U+FFFD are the encoding of what it read.
-/

namespace OpenWop.Js

section Decoder

/-- A sequence of which `needed` bytes are missing, the next of them between the bounds. -/
structure PendingBytes where
  needed : Nat
  code : Nat
  lower : Nat
  upper : Nat
  deriving DecidableEq, Repr

/-- U+FFFD. -/
def replacementChar : Char := '\uFFFD'

/-- The first byte of a sequence. -/
def firstByte (b : Nat) : List Char × Option PendingBytes :=
  if b < 0x80 then ([Char.ofNat b], none)
  else if 0xc2 ≤ b ∧ b ≤ 0xdf then ([], some ⟨1, b % 0x20, 0x80, 0xbf⟩)
  else if 0xe0 ≤ b ∧ b ≤ 0xef then
    ([], some ⟨2, b % 0x10, if b = 0xe0 then 0xa0 else 0x80, if b = 0xed then 0x9f else 0xbf⟩)
  else if 0xf0 ≤ b ∧ b ≤ 0xf4 then
    ([], some ⟨3, b % 0x08, if b = 0xf0 then 0x90 else 0x80, if b = 0xf4 then 0x8f else 0xbf⟩)
  else ([replacementChar], none)

/-- One byte more. A byte that does not go on with a sequence begins the next one. -/
def nextByte (p : Option PendingBytes) (b : Nat) : List Char × Option PendingBytes :=
  match p with
  | none => firstByte b
  | some p =>
    if p.lower ≤ b ∧ b ≤ p.upper then
      let code := p.code * 0x40 + b % 0x40
      if p.needed = 1 then ([Char.ofNat code], none)
      else ([], some ⟨p.needed - 1, code, 0x80, 0xbf⟩)
    else (replacementChar :: (firstByte b).1, (firstByte b).2)

def decodeBytes : Option PendingBytes → List UInt8 → List Char
  | none, [] => []
  | some _, [] => [replacementChar]
  | p, b :: rest => (nextByte p b.toNat).1 ++ decodeBytes (nextByte p b.toNat).2 rest

/-- The scalar values of a byte sequence. -/
def utf8Decode (bytes : List UInt8) : List Char := decodeBytes none bytes

/-- `buf.toString('utf8')`. -/
def utf8Text (bytes : List UInt8) : JsString := (utf8Decode bytes).flatMap utf16Units

end Decoder

section Steps

variable {b c d e : UInt8} {rest : List UInt8} {p : PendingBytes}

theorem decodeBytes_cons (q : Option PendingBytes) (b : UInt8) (rest : List UInt8) :
    decodeBytes q (b :: rest) =
      (nextByte q b.toNat).1 ++ decodeBytes (nextByte q b.toNat).2 rest := by
  cases q <;> rfl

theorem decode_one (h : b.toNat < 0x80) :
    decodeBytes none (b :: rest) = Char.ofNat b.toNat :: decodeBytes none rest := by
  simp [decodeBytes_cons, nextByte, firstByte, h]

theorem decode_lead_two (h : 0xc2 ≤ b.toNat) (h' : b.toNat ≤ 0xdf) :
    decodeBytes none (b :: rest) = decodeBytes (some ⟨1, b.toNat % 0x20, 0x80, 0xbf⟩) rest := by
  have hb : ¬ b.toNat < 0x80 := by omega
  simp [decodeBytes_cons, nextByte, firstByte, hb, h, h']

theorem decode_lead_three (h : 0xe0 ≤ b.toNat) (h' : b.toNat ≤ 0xef) :
    decodeBytes none (b :: rest) = decodeBytes (some ⟨2, b.toNat % 0x10,
      if b.toNat = 0xe0 then 0xa0 else 0x80, if b.toNat = 0xed then 0x9f else 0xbf⟩) rest := by
  have hb : ¬ b.toNat < 0x80 := by omega
  have hb' : ¬ (0xc2 ≤ b.toNat ∧ b.toNat ≤ 0xdf) := by omega
  simp only [decodeBytes_cons, nextByte, firstByte, if_neg hb, if_neg hb', if_pos (And.intro h h'),
    List.nil_append]

theorem decode_lead_four (h : 0xf0 ≤ b.toNat) (h' : b.toNat ≤ 0xf4) :
    decodeBytes none (b :: rest) = decodeBytes (some ⟨3, b.toNat % 0x08,
      if b.toNat = 0xf0 then 0x90 else 0x80, if b.toNat = 0xf4 then 0x8f else 0xbf⟩) rest := by
  have hb : ¬ b.toNat < 0x80 := by omega
  have hb' : ¬ (0xc2 ≤ b.toNat ∧ b.toNat ≤ 0xdf) := by omega
  have hb'' : ¬ (0xe0 ≤ b.toNat ∧ b.toNat ≤ 0xef) := by omega
  simp only [decodeBytes_cons, nextByte, firstByte, if_neg hb, if_neg hb', if_neg hb'',
    if_pos (And.intro h h'), List.nil_append]

theorem decode_last (h : p.lower ≤ b.toNat) (h' : b.toNat ≤ p.upper) (hn : p.needed = 1) :
    decodeBytes (some p) (b :: rest) =
      Char.ofNat (p.code * 0x40 + b.toNat % 0x40) :: decodeBytes none rest := by
  simp [decodeBytes_cons, nextByte, h, h', hn]

theorem decode_inner (h : p.lower ≤ b.toNat) (h' : b.toNat ≤ p.upper) (hn : p.needed ≠ 1) :
    decodeBytes (some p) (b :: rest) =
      decodeBytes (some ⟨p.needed - 1, p.code * 0x40 + b.toNat % 0x40, 0x80, 0xbf⟩) rest := by
  simp [decodeBytes_cons, nextByte, h, h', hn]

/-- A byte that begins no sequence. -/
theorem decode_invalid (h : 0xf5 ≤ b.toNat) :
    decodeBytes none (b :: rest) = replacementChar :: decodeBytes none rest := by
  have h1 : ¬ b.toNat < 0x80 := by omega
  have h2 : ¬ (0xc2 ≤ b.toNat ∧ b.toNat ≤ 0xdf) := by omega
  have h3 : ¬ (0xe0 ≤ b.toNat ∧ b.toNat ≤ 0xef) := by omega
  have h4 : ¬ (0xf0 ≤ b.toNat ∧ b.toNat ≤ 0xf4) := by omega
  simp only [decodeBytes_cons, nextByte, firstByte, if_neg h1, if_neg h2, if_neg h3, if_neg h4,
    List.cons_append, List.nil_append]

end Steps

section Encoded

theorem toNat_byte {n : Nat} (h : n < 256) : (UInt8.ofNat n).toNat = n :=
  UInt8.toNat_ofNat_of_lt' h

/-- What encodes a scalar value is read as that value. -/
theorem decodeBytes_utf8EncodeChar (c : Char) (rest : List UInt8) :
    decodeBytes none (String.utf8EncodeChar c ++ rest) = c :: decodeBytes none rest := by
  have hv : c.val.toNat.isValidChar := c.valid
  have hc : Char.ofNat c.val.toNat = c := Char.ofNat_toNat c
  unfold String.utf8EncodeChar
  generalize c.val.toNat = v at hv hc ⊢
  unfold Nat.isValidChar at hv
  dsimp only
  split
  · have h0 : (UInt8.ofNat v).toNat = v := toNat_byte (by omega)
    rw [List.cons_append, List.nil_append, decode_one (by omega), h0, hc]
  split
  · have h0 : (UInt8.ofNat (v / 64 % 0x20 + 0xc0)).toNat = v / 64 + 0xc0 := by
      rw [toNat_byte (by omega)]
      omega
    have h1 : (UInt8.ofNat (v % 0x40 + 0x80)).toNat = v % 64 + 0x80 :=
      toNat_byte (by omega)
    rw [List.cons_append, decode_lead_two (by omega) (by omega), List.cons_append, List.nil_append,
      decode_last (by simp; omega) (by simp; omega) rfl, h0, h1]
    congr 1
    rw [← hc]
    congr 1
    dsimp only
    omega
  split
  · have h0 : (UInt8.ofNat (v / 4096 % 0x10 + 0xe0)).toNat = v / 4096 + 0xe0 := by
      rw [toNat_byte (by omega)]
      omega
    have h1 : (UInt8.ofNat (v / 64 % 0x40 + 0x80)).toNat = v / 64 % 64 + 0x80 :=
      toNat_byte (by omega)
    have h2 : (UInt8.ofNat (v % 0x40 + 0x80)).toNat = v % 64 + 0x80 :=
      toNat_byte (by omega)
    rw [List.cons_append, decode_lead_three (by omega) (by omega), List.cons_append,
      decode_inner (by simp only; split <;> omega) (by simp only; split <;> omega) (by simp),
      List.cons_append, List.nil_append, decode_last (by simp; omega) (by simp; omega) rfl,
      h0, h1, h2]
    congr 1
    rw [← hc]
    congr 1
    dsimp only
    omega
  · have h0 : (UInt8.ofNat (v / 262144 % 0x08 + 0xf0)).toNat = v / 262144 + 0xf0 := by
      rw [toNat_byte (by omega)]
      omega
    have h1 : (UInt8.ofNat (v / 4096 % 0x40 + 0x80)).toNat = v / 4096 % 64 + 0x80 :=
      toNat_byte (by omega)
    have h2 : (UInt8.ofNat (v / 64 % 0x40 + 0x80)).toNat = v / 64 % 64 + 0x80 :=
      toNat_byte (by omega)
    have h3 : (UInt8.ofNat (v % 0x40 + 0x80)).toNat = v % 64 + 0x80 :=
      toNat_byte (by omega)
    rw [List.cons_append, decode_lead_four (by omega) (by omega), List.cons_append,
      decode_inner (by simp only; split <;> omega) (by simp only; split <;> omega) (by simp),
      List.cons_append, decode_inner (by simp; omega) (by simp; omega) (by simp),
      List.cons_append, List.nil_append, decode_last (by simp; omega) (by simp; omega) rfl,
      h0, h1, h2, h3]
    congr 1
    rw [← hc]
    congr 1
    dsimp only
    omega

theorem decodeBytes_flatMap (l : List Char) (rest : List UInt8) :
    decodeBytes none (l.flatMap String.utf8EncodeChar ++ rest) = l ++ decodeBytes none rest := by
  induction l with
  | nil => rfl
  | cons c l ih =>
    rw [List.flatMap_cons, List.append_assoc, decodeBytes_utf8EncodeChar, ih, List.cons_append]

/-- The decoder reads back what was encoded. -/
theorem utf8Decode_flatMap (l : List Char) :
    utf8Decode (l.flatMap String.utf8EncodeChar) = l := by
  have h := decodeBytes_flatMap l []
  rwa [List.append_nil, decodeBytes, List.append_nil] at h

end Encoded

section Decoded

variable {b c d e : UInt8} {bytes rest : List UInt8} {p : PendingBytes}

/-- The bytes that begin a sequence. -/
theorem firstByte_of_not_mem (h : replacementChar ∉ decodeBytes none (b :: rest)) :
    b.toNat < 0x80 ∨ (0xc2 ≤ b.toNat ∧ b.toNat ≤ 0xdf) ∨
      (0xe0 ≤ b.toNat ∧ b.toNat ≤ 0xef) ∨ (0xf0 ≤ b.toNat ∧ b.toNat ≤ 0xf4) := by
  by_contra hc
  apply h
  have h1 : ¬ b.toNat < 0x80 := by omega
  have h2 : ¬ (0xc2 ≤ b.toNat ∧ b.toNat ≤ 0xdf) := by omega
  have h3 : ¬ (0xe0 ≤ b.toNat ∧ b.toNat ≤ 0xef) := by omega
  have h4 : ¬ (0xf0 ≤ b.toNat ∧ b.toNat ≤ 0xf4) := by omega
  simp only [decodeBytes_cons, nextByte, firstByte, if_neg h1, if_neg h2, if_neg h3, if_neg h4]
  exact List.mem_append_left _ (List.mem_singleton_self _)

/-- A sequence goes on with a byte between its bounds. -/
theorem exists_cons_of_not_mem (h : replacementChar ∉ decodeBytes (some p) bytes) :
    ∃ b rest, bytes = b :: rest ∧ p.lower ≤ b.toNat ∧ b.toNat ≤ p.upper := by
  cases bytes with
  | nil => exact absurd (List.mem_singleton_self _) h
  | cons b rest =>
    refine ⟨b, rest, rfl, ?_⟩
    by_contra hb
    apply h
    simp only [decodeBytes_cons, nextByte, if_neg hb]
    exact List.mem_append_left _ (List.mem_cons_self ..)

theorem utf8EncodeChar_one (h : b.toNat < 0x80) :
    String.utf8EncodeChar (Char.ofNat b.toNat) = [b] := by
  have hv : (Char.ofNat b.toNat).val.toNat = b.toNat :=
    toNat_ofNat_of_valid (by unfold Nat.isValidChar; omega)
  simp only [String.utf8EncodeChar, hv, if_pos (show b.toNat ≤ 0x7f by omega), UInt8.ofNat_toNat]

theorem utf8EncodeChar_two (hb : 0xc2 ≤ b.toNat) (hb' : b.toNat ≤ 0xdf) (hc : 0x80 ≤ c.toNat)
    (hc' : c.toNat ≤ 0xbf) :
    String.utf8EncodeChar (Char.ofNat (b.toNat % 0x20 * 0x40 + c.toNat % 0x40)) = [b, c] := by
  generalize hn : b.toNat % 0x20 * 0x40 + c.toNat % 0x40 = n
  have hv : (Char.ofNat n).val.toNat = n :=
    toNat_ofNat_of_valid (by unfold Nat.isValidChar; omega)
  simp only [String.utf8EncodeChar, hv, if_neg (show ¬ n ≤ 0x7f by omega),
    if_pos (show n ≤ 0x7ff by omega), List.cons.injEq, and_true, ← UInt8.toNat_inj]
  constructor
  · rw [toNat_byte (by omega)]
    omega
  · rw [toNat_byte (by omega)]
    omega

theorem utf8EncodeChar_three (hb : 0xe0 ≤ b.toNat) (hb' : b.toNat ≤ 0xef)
    (hc : (if b.toNat = 0xe0 then 0xa0 else 0x80) ≤ c.toNat)
    (hc' : c.toNat ≤ if b.toNat = 0xed then 0x9f else 0xbf)
    (hd : 0x80 ≤ d.toNat) (hd' : d.toNat ≤ 0xbf) :
    String.utf8EncodeChar (Char.ofNat
      ((b.toNat % 0x10 * 0x40 + c.toNat % 0x40) * 0x40 + d.toNat % 0x40)) = [b, c, d] := by
  generalize hn : (b.toNat % 0x10 * 0x40 + c.toNat % 0x40) * 0x40 + d.toNat % 0x40 = n
  have hupper : c.toNat ≤ 0xbf := by split at hc' <;> omega
  have hlow : 0x80 ≤ c.toNat ∧ 0x800 ≤ n := by split at hc <;> omega
  have hhigh : n < 0xd800 ∨ 0xdfff < n := by split at hc' <;> omega
  have hv : (Char.ofNat n).val.toNat = n :=
    toNat_ofNat_of_valid (by unfold Nat.isValidChar; omega)
  simp only [String.utf8EncodeChar, hv, if_neg (show ¬ n ≤ 0x7f by omega),
    if_neg (show ¬ n ≤ 0x7ff by omega), if_pos (show n ≤ 0xffff by omega), List.cons.injEq,
    and_true, ← UInt8.toNat_inj]
  refine ⟨?_, ?_, ?_⟩
  all_goals
    rw [toNat_byte (by omega)]
    omega

theorem utf8EncodeChar_four (hb : 0xf0 ≤ b.toNat) (hb' : b.toNat ≤ 0xf4)
    (hc : (if b.toNat = 0xf0 then 0x90 else 0x80) ≤ c.toNat)
    (hc' : c.toNat ≤ if b.toNat = 0xf4 then 0x8f else 0xbf)
    (hd : 0x80 ≤ d.toNat) (hd' : d.toNat ≤ 0xbf) (he : 0x80 ≤ e.toNat) (he' : e.toNat ≤ 0xbf) :
    String.utf8EncodeChar (Char.ofNat
      (((b.toNat % 0x08 * 0x40 + c.toNat % 0x40) * 0x40 + d.toNat % 0x40) * 0x40 +
        e.toNat % 0x40)) = [b, c, d, e] := by
  generalize hn : ((b.toNat % 0x08 * 0x40 + c.toNat % 0x40) * 0x40 + d.toNat % 0x40) * 0x40 +
    e.toNat % 0x40 = n
  have hupper : c.toNat ≤ 0xbf := by split at hc' <;> omega
  have hlow : 0x80 ≤ c.toNat ∧ 0x10000 ≤ n := by split at hc <;> omega
  have hhigh : n < 0x110000 := by split at hc' <;> omega
  have hv : (Char.ofNat n).val.toNat = n :=
    toNat_ofNat_of_valid (by unfold Nat.isValidChar; omega)
  simp only [String.utf8EncodeChar, hv, if_neg (show ¬ n ≤ 0x7f by omega),
    if_neg (show ¬ n ≤ 0x7ff by omega), if_neg (show ¬ n ≤ 0xffff by omega), List.cons.injEq,
    and_true, ← UInt8.toNat_inj]
  refine ⟨?_, ?_, ?_, ?_⟩
  all_goals
    rw [toNat_byte (by omega)]
    omega

/-- Bytes that are read without U+FFFD are the encoding of what was read. -/
theorem flatMap_utf8Decode (h : replacementChar ∉ utf8Decode bytes) :
    (utf8Decode bytes).flatMap String.utf8EncodeChar = bytes := by
  unfold utf8Decode at h ⊢
  -- One scalar value at a time.
  induction hlen : bytes.length using Nat.strongRecOn generalizing bytes with
  | _ n ih =>
    have tail {rest : List UInt8} {x : Char} (hlt : rest.length < n)
        (hx : replacementChar ∉ x :: decodeBytes none rest) :
        (x :: decodeBytes none rest).flatMap String.utf8EncodeChar =
          String.utf8EncodeChar x ++ rest := by
      rw [List.flatMap_cons, ih _ hlt (fun hm => hx (List.mem_cons_of_mem x hm)) rfl]
    cases bytes with
    | nil => rfl
    | cons b rest =>
      rw [List.length_cons] at hlen
      rcases firstByte_of_not_mem h with hb | ⟨hb, hb'⟩ | ⟨hb, hb'⟩ | ⟨hb, hb'⟩
      · rw [decode_one hb] at h ⊢
        rw [tail (by omega) h, utf8EncodeChar_one hb]
        rfl
      · rw [decode_lead_two hb hb'] at h ⊢
        obtain ⟨c, rest, rfl, hc, hc'⟩ := exists_cons_of_not_mem h
        rw [decode_last hc hc' rfl] at h ⊢
        rw [List.length_cons] at hlen
        rw [tail (by omega) h, utf8EncodeChar_two hb hb' hc hc']
        rfl
      · rw [decode_lead_three hb hb'] at h ⊢
        obtain ⟨c, rest, rfl, hc, hc'⟩ := exists_cons_of_not_mem h
        rw [decode_inner hc hc' (by simp)] at h ⊢
        obtain ⟨d, rest, rfl, hd, hd'⟩ := exists_cons_of_not_mem h
        rw [decode_last hd hd' rfl] at h ⊢
        rw [List.length_cons, List.length_cons] at hlen
        rw [tail (by omega) h, utf8EncodeChar_three hb hb' hc hc' hd hd']
        rfl
      · rw [decode_lead_four hb hb'] at h ⊢
        obtain ⟨c, rest, rfl, hc, hc'⟩ := exists_cons_of_not_mem h
        rw [decode_inner hc hc' (by simp)] at h ⊢
        obtain ⟨d, rest, rfl, hd, hd'⟩ := exists_cons_of_not_mem h
        rw [decode_inner hd hd' (by simp)] at h ⊢
        obtain ⟨e, rest, rfl, he, he'⟩ := exists_cons_of_not_mem h
        rw [decode_last he he' rfl] at h ⊢
        rw [List.length_cons, List.length_cons, List.length_cons] at hlen
        rw [tail (by omega) h, utf8EncodeChar_four hb hb' hc hc' hd hd' he he']
        rfl

/-- What is read with U+FFFD is also read from other bytes. -/
theorem exists_utf8Decode_eq {l : List Char} (h : replacementChar ∈ l) (bytes : List UInt8) :
    ∃ bytes', bytes' ≠ bytes ∧ utf8Decode bytes' = l := by
  by_cases hb : bytes = l.flatMap String.utf8EncodeChar
  · obtain ⟨before, after, rfl⟩ := List.append_of_mem h
    refine ⟨before.flatMap String.utf8EncodeChar ++ 0xff :: after.flatMap String.utf8EncodeChar,
      ?_, ?_⟩
    · subst hb
      rw [List.flatMap_append, List.flatMap_cons]
      intro he
      have hhead : (0xff : UInt8) = 0xef := (List.cons.inj (List.append_cancel_left he)).1
      exact absurd hhead (by decide)
    · rw [utf8Decode, decodeBytes_flatMap, decode_invalid (by decide)]
      exact congrArg (before ++ replacementChar :: ·) (utf8Decode_flatMap after)
  · exact ⟨_, Ne.symm hb, utf8Decode_flatMap l⟩

end Decoded

section Text

theorem isSurrogate_iff {u : UInt16} :
    isSurrogate u = true ↔ 0xd800 ≤ u.toNat ∧ u.toNat ≤ 0xdfff := by
  rw [isSurrogate, Bool.or_eq_true, isHighSurrogate_iff, isLowSurrogate_iff]
  omega

theorem scalars_cons_of_not_high {u : UInt16} (h : isHighSurrogate u = false) (s : JsString) :
    scalars (u :: s) = unitScalar u :: scalars s := by
  cases s with
  | nil => rfl
  | cons v rest => rw [scalars, h, Bool.false_and, if_neg Bool.false_ne_true]

/-- The units of a scalar value are read as that value. -/
theorem scalars_utf16Units (c : Char) (s : JsString) :
    scalars (utf16Units c ++ s) = c :: scalars s := by
  have hv : c.toNat.isValidChar := c.valid
  have hc : Char.ofNat c.toNat = c := Char.ofNat_toNat c
  unfold Nat.isValidChar at hv
  unfold utf16Units
  split
  · next hlt =>
    have h0 : (UInt16.ofNat c.toNat).toNat = c.toNat := UInt16.toNat_ofNat_of_lt' hlt
    have hs : isSurrogate (UInt16.ofNat c.toNat) = false := by
      rw [← Bool.not_eq_true, isSurrogate_iff, h0]
      omega
    have hh := (Bool.or_eq_false_iff.mp hs).1
    rw [List.cons_append, List.nil_append, scalars_cons_of_not_high hh, unitScalar, hs,
      if_neg Bool.false_ne_true, h0, hc]
  · next hge =>
    have h0 : (UInt16.ofNat (0xd800 + (c.toNat - 0x10000) / 0x400)).toNat =
        0xd800 + (c.toNat - 0x10000) / 0x400 :=
      UInt16.toNat_ofNat_of_lt' (by simp [UInt16.size]; omega)
    have h1 : (UInt16.ofNat (0xdc00 + (c.toNat - 0x10000) % 0x400)).toNat =
        0xdc00 + (c.toNat - 0x10000) % 0x400 :=
      UInt16.toNat_ofNat_of_lt' (by simp [UInt16.size]; omega)
    have hhigh := isHighSurrogate_iff.mpr (by rw [h0]; omega)
    have hlow := isLowSurrogate_iff.mpr (by rw [h1]; omega)
    rw [List.cons_append, List.cons_append, List.nil_append, scalars, hhigh, hlow, Bool.and_self,
      if_pos rfl, pairScalar, h0, h1]
    refine congrArg (· :: scalars s) ((congrArg Char.ofNat ?_).trans hc)
    omega

/-- A string of scalar values is read as those values. -/
theorem scalars_flatMap_utf16Units (l : List Char) : scalars (l.flatMap utf16Units) = l := by
  induction l with
  | nil => rfl
  | cons c l ih => rw [List.flatMap_cons, scalars_utf16Units, ih]

theorem scalars_utf8Text (bytes : List UInt8) : scalars (utf8Text bytes) = utf8Decode bytes :=
  scalars_flatMap_utf16Units _

/-- A well-formed string is read back from its bytes. -/
theorem utf8Text_utf8 {s : JsString} (h : isWellFormed s = true) : utf8Text (utf8 s) = s := by
  rw [utf8Text, utf8, utf8Decode_flatMap, flatMap_utf16Units_scalars h]

/-- A prefix without surrogates is read on its own. -/
theorem scalars_append {s : JsString} (h : ∀ u ∈ s, isSurrogate u = false) (t : JsString) :
    scalars (s ++ t) = scalars s ++ scalars t := by
  induction s with
  | nil => rfl
  | cons u s ih =>
    rw [List.forall_mem_cons] at h
    have hh := (Bool.or_eq_false_iff.mp h.1).1
    rw [List.cons_append, scalars_cons_of_not_high hh, scalars_cons_of_not_high hh, ih h.2,
      List.cons_append]

end Text

end OpenWop.Js
