import OpenWop.Js.NumberLiteral
import OpenWop.Js.Utf8Decode

/-!
# The protobuf wire format

The reader of the OTLP decoders works on a range of a buffer it shares with the readers of
the embedded messages. Beside it stands the wire format on the bytes of one message: what
its fields are, and whether one of them runs past the end. A read agrees with the format
as far as the reader checks where it reads.
-/

namespace OpenWop.Otlp

open OpenWop.Js

section Reader

/-- The byte at an index, where there is one. -/
abbrev Buffer := Nat → Option UInt8

/-- What a decoder throws, or how a run of the model falls short: by a read at an index
without a byte, or by too few turns or levels. -/
inductive DecodeError where
  | varintEof
  | varintTooLong
  | unknownWireType (wireType : Nat)
  | lenOverruns
  | doubleOverruns
  | fixed64Overruns
  | messageOverruns
  | noByte
  | exhausted
  deriving DecidableEq, Repr

/-- The message of the error. -/
def DecodeError.message : DecodeError → JsString
  | .varintEof => js "PbReader: unexpected EOF in varint"
  | .varintTooLong => js "PbReader: varint exceeds 10 bytes"
  | .unknownWireType wireType => js "PbReader: cannot skip unknown wire type " ++ decimal wireType
  | .lenOverruns => js "PbReader: LEN overruns buffer"
  | .doubleOverruns => js "PbReader: double overruns buffer"
  | .fixed64Overruns => js "PbReader: fixed64 overruns buffer"
  | .messageOverruns => js "PbReader: embedded message overruns buffer"
  | .noByte | .exhausted => []

/-- The decoder itself throws the error. -/
def DecodeError.Thrown (e : DecodeError) : Prop := e ≠ .noByte ∧ e ≠ .exhausted

/-- `Number(n)` for a natural bigint: the nearest double, ties to the even one. -/
def bigintNumber (n : Nat) : Nat :=
  if n < 2 ^ 53 then n
  else
    let ulp := 2 ^ (n.log2 - 52)
    let down := n / ulp
    if 2 * (n % ulp) < ulp ∨ 2 * (n % ulp) = ulp ∧ down % 2 = 0 then down * ulp
    else (down + 1) * ulp

structure Tag where
  fieldNumber : Nat
  wireType : Nat
  deriving DecidableEq, Repr

def wireVarint : Nat := 0
def wireI64 : Nat := 1
def wireLen : Nat := 2
def wireI32 : Nat := 5

/-- A reader of the bytes from `offset` to `finish`. -/
structure PbReader where
  buf : Buffer
  offset : Nat
  finish : Nat

/-- The double with these eight bytes, the last of which has the sign. -/
def doubleOfBits (n : Nat) : JsNumber :=
  let negative := decide (2 ^ 63 ≤ n)
  let exponent : Nat := n / 2 ^ 52 % 2 ^ 11
  let mantissa : Nat := n % 2 ^ 52
  if exponent = 2 ^ 11 - 1 then
    if mantissa = 0 then .infinity negative else .nan
  else if exponent = 0 then nearestNumber negative ((mantissa : ℚ) * 2 ^ (-1074 : Int))
  else nearestNumber negative (((2 ^ 52 + mantissa : Nat) : ℚ) * 2 ^ ((exponent : Int) - 1075))

/-- The unsigned word of little-endian bytes. -/
def littleEndian (bytes : List UInt8) : Nat :=
  bytes.foldr (fun b n => b.toNat + 256 * n) 0

namespace PbReader

def hasMore (r : PbReader) : Bool := decide (r.offset < r.finish)

/-- The reader so many bytes further. -/
def advance (r : PbReader) (n : Nat) : PbReader := { r with offset := r.offset + n }

/-- The bytes at so many indices from the offset. -/
def bytesAt (r : PbReader) : Nat → Except DecodeError (List UInt8)
  | 0 => .ok []
  | n + 1 => (r.buf r.offset).elim (.error .noByte) fun b => ((r.advance 1).bytesAt n).map (b :: ·)

/-- The turns of `readVarint`. The bits of a byte stand above those read before. -/
def readVarintLoop : Nat → Nat → Nat → PbReader → Except DecodeError (Nat × PbReader)
  | 0, _, _, _ => .error .varintTooLong
  | turns + 1, shift, result, r =>
    if r.finish ≤ r.offset then .error .varintEof
    else match r.buf r.offset with
      | none => .error .noByte
      | some b =>
        let result := result + b.toNat % 0x80 * 2 ^ shift
        if b.toNat < 0x80 then .ok (result, r.advance 1)
        else readVarintLoop turns (shift + 7) result (r.advance 1)

def readVarint (r : PbReader) : Except DecodeError (Nat × PbReader) := readVarintLoop 10 0 0 r

def readVarintNumber (r : PbReader) : Except DecodeError (Nat × PbReader) :=
  r.readVarint.map fun p => (bigintNumber p.1, p.2)

/-- `t >>> 3` takes the low 32 bits of the number first. -/
def readTag (r : PbReader) : Except DecodeError (Tag × PbReader) :=
  r.readVarintNumber.map fun p => (⟨p.1 % 2 ^ 32 / 8, p.1 % 8⟩, p.2)

/-- No more is checked than that a varint ends. -/
def skip (r : PbReader) (wireType : Nat) : Except DecodeError PbReader :=
  if wireType = wireVarint then r.readVarint.map Prod.snd
  else if wireType = wireI64 then .ok (r.advance 8)
  else if wireType = wireLen then r.readVarintNumber.map fun p => p.2.advance p.1
  else if wireType = wireI32 then .ok (r.advance 4)
  else .error (.unknownWireType wireType)

def readLengthDelimited (r : PbReader) : Except DecodeError (List UInt8 × PbReader) := do
  let (n, r) ← r.readVarintNumber
  if r.finish < r.offset + n then throw .lenOverruns
  return (← r.bytesAt n, r.advance n)

/-- `textDecoder.decode` drops a byte order mark. -/
def textDecode (bytes : List UInt8) : JsString :=
  utf8Text (if [0xef, 0xbb, 0xbf].isPrefixOf bytes then bytes.drop 3 else bytes)

def readString (r : PbReader) : Except DecodeError (JsString × PbReader) :=
  r.readLengthDelimited.map fun p => (textDecode p.1, p.2)

def readBytesAsHex (r : PbReader) : Except DecodeError (JsString × PbReader) :=
  r.readLengthDelimited.map fun p => (hexText p.1, p.2)

def readDouble (r : PbReader) : Except DecodeError (JsNumber × PbReader) := do
  if r.finish < r.offset + 8 then throw .doubleOverruns
  return (doubleOfBits (littleEndian (← r.bytesAt 8)), r.advance 8)

def readFixed64Uint (r : PbReader) : Except DecodeError (Nat × PbReader) := do
  if r.finish < r.offset + 8 then throw .fixed64Overruns
  return (littleEndian (← r.bytesAt 8), r.advance 8)

def readFixed64Int (r : PbReader) : Except DecodeError (Int × PbReader) :=
  r.readFixed64Uint.map fun p => (if 2 ^ 63 ≤ p.1 then (p.1 : Int) - 2 ^ 64 else p.1, p.2)

def readMessage (r : PbReader) : Except DecodeError (PbReader × PbReader) := do
  let (n, r) ← r.readVarintNumber
  if r.finish < r.offset + n then throw .messageOverruns
  return ({ r with finish := r.offset + n }, r.advance n)

/-- What a turn over the fields does. It goes on, or the decoder returns. -/
inductive Turn (σ : Type) where
  | next (s : σ) (r : PbReader)
  | stop (s : σ)

/-- What a decoder does with a field, the reader standing after its tag. -/
abbrev Handler (σ : Type) := σ → Tag → PbReader → Except DecodeError (Turn σ)

/-- `while (r.hasMore())`, with so many turns at most. -/
def turns {σ : Type} (handle : Handler σ) : Nat → σ → PbReader → Except DecodeError σ
  | 0, s, r => if r.hasMore then .error .exhausted else .ok s
  | fuel + 1, s, r =>
    if r.hasMore then do
      let (tag, r) ← r.readTag
      match ← handle s tag r with
      | .next s r => turns handle fuel s r
      | .stop s => return s
    else .ok s

/-- The loop over the fields. A turn takes a byte at least. -/
def each {σ : Type} (handle : Handler σ) (s : σ) (r : PbReader) : Except DecodeError σ :=
  turns handle (r.finish - r.offset) s r

end PbReader

end Reader

section Format

/-- Why bytes are not fields: one runs past the end, or one is not of the format. -/
inductive Flaw where
  | overrun
  | malformed
  deriving DecidableEq, Repr

/-- What the tag announces. -/
inductive Payload where
  | varint (n : Nat)
  | i64 (bytes : List UInt8)
  | len (bytes : List UInt8)
  | i32 (bytes : List UInt8)
  deriving DecidableEq, Repr

structure Field where
  number : Nat
  payload : Payload
  deriving DecidableEq, Repr

/-- A varint of so many bytes at most, and what follows it. -/
def varintOf : Nat → List UInt8 → Except Flaw (Nat × List UInt8)
  | 0, _ => .error .malformed
  | _ + 1, [] => .error .overrun
  | turns + 1, b :: rest =>
    if b.toNat < 0x80 then .ok (b.toNat, rest)
    else (varintOf turns rest).map fun p => (b.toNat % 0x80 + 0x80 * p.1, p.2)

/-- So many bytes at the front, and what follows them. -/
def takeBytes (n : Nat) (bytes : List UInt8) : Except Flaw (List UInt8 × List UInt8) :=
  if n ≤ bytes.length then .ok (bytes.take n, bytes.drop n) else .error .overrun

/-- The payload of a wire type at the front, and what follows it. -/
def payloadOf (wireType : Nat) (bytes : List UInt8) : Except Flaw (Payload × List UInt8) :=
  if wireType = wireVarint then
    (varintOf 10 bytes).bind fun p =>
      if p.1 < 2 ^ 64 then .ok (.varint p.1, p.2) else .error .malformed
  else if wireType = wireI64 then (takeBytes 8 bytes).map fun p => (.i64 p.1, p.2)
  else if wireType = wireLen then
    (varintOf 10 bytes).bind fun p => (takeBytes p.1 p.2).map fun q => (.len q.1, q.2)
  else if wireType = wireI32 then (takeBytes 4 bytes).map fun p => (.i32 p.1, p.2)
  else .error .malformed

/-- The tag at the front, and what follows it. -/
def tagOf (bytes : List UInt8) : Except Flaw (Tag × List UInt8) :=
  (varintOf 10 bytes).bind fun p =>
    if p.1 < 2 ^ 32 then .ok (⟨p.1 / 8, p.1 % 8⟩, p.2) else .error .malformed

/-- The field at the front, and what follows it. -/
def fieldOf (bytes : List UInt8) : Except Flaw (Field × List UInt8) :=
  (tagOf bytes).bind fun p =>
    (payloadOf p.1.wireType p.2).map fun q => (⟨p.1.fieldNumber, q.1⟩, q.2)

/-- The fields of a message, with so many at most. -/
def fieldsUpTo : Nat → List UInt8 → Except Flaw (List Field)
  | _, [] => .ok []
  | 0, _ :: _ => .error .malformed
  | n + 1, b :: bytes =>
    (fieldOf (b :: bytes)).bind fun p => (fieldsUpTo n p.2).map (p.1 :: ·)

/-- The fields of a message. A field takes a byte at least. -/
def fieldsOf (bytes : List UInt8) : Except Flaw (List Field) := fieldsUpTo bytes.length bytes

end Format

section Lengths

variable {bytes rest : List UInt8} {n t : Nat}

theorem varintOf_length {p : Nat × List UInt8} (h : varintOf t bytes = .ok p) :
    p.2.length < bytes.length := by
  induction t generalizing bytes p with
  | zero => cases h
  | succ t ih =>
    cases bytes with
    | nil => cases h
    | cons b rest =>
      rw [varintOf] at h
      split at h
      · cases h
        simp
      · cases hr : varintOf t rest with
        | error e =>
          rw [hr] at h
          cases h
        | ok q =>
          rw [hr] at h
          cases h
          have := ih hr
          simp only [List.length_cons]
          omega

theorem takeBytes_eq {p : List UInt8 × List UInt8} (h : takeBytes n bytes = .ok p) :
    n ≤ bytes.length ∧ p = (bytes.take n, bytes.drop n) := by
  rw [takeBytes] at h
  split at h
  · next hle =>
    cases h
    exact ⟨hle, rfl⟩
  · cases h

theorem payloadOf_length {wireType : Nat} {p : Payload × List UInt8}
    (h : payloadOf wireType bytes = .ok p) : p.2.length ≤ bytes.length := by
  unfold payloadOf at h
  split at h
  · cases hv : varintOf 10 bytes with
    | error e => simp [hv, Except.bind] at h
    | ok q =>
      have := varintOf_length hv
      simp only [hv, Except.bind] at h
      split at h
      · cases h
        exact this.le
      · cases h
  split at h
  · cases ht : takeBytes 8 bytes with
    | error e => simp [ht, Except.map] at h
    | ok q =>
      obtain ⟨_, rfl⟩ := takeBytes_eq ht
      simp only [ht, Except.map] at h
      cases h
      simp
  split at h
  · cases hv : varintOf 10 bytes with
    | error e => simp [hv, Except.bind] at h
    | ok q =>
      have := varintOf_length hv
      cases ht : takeBytes q.1 q.2 with
      | error e => simp [hv, ht, Except.bind, Except.map] at h
      | ok q' =>
        obtain ⟨_, rfl⟩ := takeBytes_eq ht
        simp only [hv, ht, Except.bind, Except.map] at h
        cases h
        simp only [List.length_drop]
        omega
  split at h
  · cases ht : takeBytes 4 bytes with
    | error e => simp [ht, Except.map] at h
    | ok q =>
      obtain ⟨_, rfl⟩ := takeBytes_eq ht
      simp only [ht, Except.map] at h
      cases h
      simp
  · cases h

end Lengths

section Reading

/-- Rounding takes no number below 2^53 that was not below it. -/
theorem bigintNumber_le_iff {n bound : Nat} (hb : bound < 2 ^ 53) :
    bigintNumber n ≤ bound ↔ n ≤ bound := by
  by_cases hn : n < 2 ^ 53
  · rw [bigintNumber, if_pos hn]
  have hlog : 53 ≤ n.log2 := (Nat.le_log2 (by omega)).mpr (by omega)
  have hlarge : 2 ^ 53 ≤ n / 2 ^ (n.log2 - 52) * 2 ^ (n.log2 - 52) := by
    have hdown : 2 ^ 52 ≤ n / 2 ^ (n.log2 - 52) := by
      rw [Nat.le_div_iff_mul_le (by positivity), ← pow_add, Nat.add_sub_cancel' (by omega)]
      exact Nat.log2_self_le (by omega)
    calc 2 ^ 53 ≤ 2 ^ n.log2 := Nat.pow_le_pow_right (by norm_num) hlog
      _ = 2 ^ 52 * 2 ^ (n.log2 - 52) := by rw [← pow_add, Nat.add_sub_cancel' (by omega)]
      _ ≤ _ := Nat.mul_le_mul_right _ hdown
  have hround : 2 ^ 53 ≤ bigintNumber n := by
    rw [bigintNumber, if_neg hn]
    dsimp only
    split
    · exact hlarge
    · exact hlarge.trans (Nat.mul_le_mul_right _ (Nat.le_succ _))
  omega

namespace PbReader

variable {r : PbReader} {bytes rest : List UInt8} {n : Nat}

/-- The bytes of the range of a reader. No buffer has 2^53 bytes. -/
structure Holds (r : PbReader) (bytes : List UInt8) : Prop where
  size : bytes.length = r.finish - r.offset
  bounded : bytes.length < 2 ^ 53
  byte : ∀ i, i < bytes.length → r.buf (r.offset + i) = bytes[i]?

theorem Holds.advance (h : r.Holds bytes) (n : Nat) : (r.advance n).Holds (bytes.drop n) where
  size := by
    have := h.size
    simp only [List.length_drop, PbReader.advance]
    omega
  bounded := by
    have := h.bounded
    rw [List.length_drop]
    omega
  byte i hi := by
    rw [List.length_drop] at hi
    rw [PbReader.advance, List.getElem?_drop, Nat.add_assoc]
    exact h.byte (n + i) (by omega)

theorem Holds.sub (h : r.Holds bytes) (hn : n ≤ bytes.length) :
    PbReader.Holds { r with finish := r.offset + n } (bytes.take n) where
  size := by simp [hn]
  bounded := by
    have := h.bounded
    rw [List.length_take]
    omega
  byte i hi := by
    rw [List.length_take] at hi
    rw [List.getElem?_take_of_lt (by omega)]
    exact h.byte i (by omega)

theorem Holds.hasMore (h : r.Holds bytes) : r.hasMore = true ↔ bytes ≠ [] := by
  have hs := h.size
  rw [← List.length_pos_iff, PbReader.hasMore, decide_eq_true_iff]
  omega

theorem Holds.bytesAt (h : r.Holds bytes) (hn : n ≤ bytes.length) :
    r.bytesAt n = .ok (bytes.take n) := by
  induction n generalizing r bytes with
  | zero => rfl
  | succ n ih =>
    cases bytes with
    | nil => simp at hn
    | cons b rest =>
      have hbyte : r.buf r.offset = some b := h.byte 0 (by simp)
      have hrest : (r.advance 1).Holds rest := h.advance 1
      rw [PbReader.bytesAt, hbyte, Option.elim_some, ih hrest (by simpa using hn)]
      rfl

/-- A varint is read as the format has it, for as many turns. -/
theorem readVarintLoop_eq (turns shift result : Nat) (h : r.Holds bytes) :
    match varintOf turns bytes with
    | .ok p => ∃ r', readVarintLoop turns shift result r = .ok (result + p.1 * 2 ^ shift, r') ∧
        r'.Holds p.2 ∧ r'.offset ≤ r'.finish
    | .error .overrun => readVarintLoop turns shift result r = .error .varintEof
    | .error .malformed => readVarintLoop turns shift result r = .error .varintTooLong := by
  induction turns generalizing shift result r bytes with
  | zero => rfl
  | succ turns ih =>
    have hsize := h.size
    cases bytes with
    | nil =>
      rw [List.length_nil] at hsize
      simp only [varintOf, readVarintLoop, if_pos (show r.finish ≤ r.offset by omega)]
    | cons b rest =>
      rw [List.length_cons] at hsize
      have hbyte : r.buf r.offset = some b := h.byte 0 (by simp)
      have hrest : (r.advance 1).Holds rest := h.advance 1
      rw [readVarintLoop, if_neg (by omega), hbyte, varintOf]
      by_cases hb : b.toNat < 0x80
      · simp only [if_pos hb]
        exact ⟨_, by rw [Nat.mod_eq_of_lt hb], hrest, by simp only [PbReader.advance]; omega⟩
      · have hnext := ih (shift + 7) (result + b.toNat % 0x80 * 2 ^ shift) hrest
        simp only [if_neg hb]
        cases hv : varintOf turns rest with
        | error e => cases e <;> simpa [hv, Except.map] using hnext
        | ok p =>
          rw [hv] at hnext
          obtain ⟨r', hr', hh⟩ := hnext
          refine ⟨r', ?_, hh⟩
          rw [hr']
          congr 2
          rw [pow_add]
          ring

theorem readVarint_ok (h : r.Holds bytes) {p : Nat × List UInt8} (hv : varintOf 10 bytes = .ok p) :
    ∃ r', r.readVarint = .ok (p.1, r') ∧ r'.Holds p.2 ∧ r'.offset ≤ r'.finish := by
  have heq := readVarintLoop_eq 10 0 0 h
  rw [hv] at heq
  obtain ⟨r', hr', hh⟩ := heq
  exact ⟨r', by rw [readVarint, hr']; simp, hh⟩

theorem readVarint_error (h : r.Holds bytes) {f : Flaw} (hv : varintOf 10 bytes = .error f) :
    ∃ e, r.readVarint = .error e ∧ e.Thrown := by
  have heq := readVarintLoop_eq 10 0 0 h
  rw [hv] at heq
  cases f with
  | overrun => exact ⟨_, heq, by simp [DecodeError.Thrown]⟩
  | malformed => exact ⟨_, heq, by simp [DecodeError.Thrown]⟩

/-- The format's length at the front, as the reader finds it. -/
theorem readVarintNumber_ok (h : r.Holds bytes) {p : Nat × List UInt8}
    (hv : varintOf 10 bytes = .ok p) :
    ∃ r', r.readVarintNumber = .ok (bigintNumber p.1, r') ∧ r'.Holds p.2 ∧
      r'.offset ≤ r'.finish := by
  obtain ⟨r', hr', hh⟩ := readVarint_ok h hv
  exact ⟨r', by rw [readVarintNumber, hr']; rfl, hh⟩

theorem readVarintNumber_error (h : r.Holds bytes) {f : Flaw}
    (hv : varintOf 10 bytes = .error f) : ∃ e, r.readVarintNumber = .error e ∧ e.Thrown := by
  obtain ⟨e, he, ht⟩ := readVarint_error h hv
  exact ⟨e, by rw [readVarintNumber, he]; rfl, ht⟩

theorem readTag_ok (h : r.Holds bytes) {p : Tag × List UInt8} (ht : tagOf bytes = .ok p) :
    ∃ r', r.readTag = .ok (p.1, r') ∧ r'.Holds p.2 := by
  unfold tagOf at ht
  cases hv : varintOf 10 bytes with
  | error f => simp [hv, Except.bind] at ht
  | ok q =>
    simp only [hv, Except.bind] at ht
    split at ht
    · next hlt =>
      cases ht
      obtain ⟨r', hr', hh, _⟩ := readVarintNumber_ok h hv
      refine ⟨r', ?_, hh⟩
      have hn : bigintNumber q.1 = q.1 := if_pos (by omega)
      rw [readTag, hr', Except.map, hn, Nat.mod_eq_of_lt hlt]
    · cases ht

/-- What the reader checks a length against. -/
theorem lengthOf_ok (h : r.Holds bytes) {s : List UInt8}
    (hp : payloadOf wireLen bytes = .ok (.len s, rest)) :
    ∃ n r' after, r.readVarintNumber = .ok (n, r') ∧ r'.Holds after ∧ n ≤ after.length ∧
      ¬ r'.finish < r'.offset + n ∧ s = after.take n ∧ rest = after.drop n := by
  simp only [payloadOf, wireLen, wireVarint, wireI64, OfNat.ofNat_ne_zero, OfNat.ofNat_ne_one,
    if_false, if_true] at hp
  cases hv : varintOf 10 bytes with
  | error f => simp [hv, Except.bind] at hp
  | ok q =>
    cases ht : takeBytes q.1 q.2 with
    | error f => simp [hv, ht, Except.bind, Except.map] at hp
    | ok q' =>
      obtain ⟨hle, rfl⟩ := takeBytes_eq ht
      simp only [hv, ht, Except.bind, Except.map] at hp
      cases hp
      obtain ⟨r', hr', hh, hoff⟩ := readVarintNumber_ok h hv
      have hb := hh.bounded
      have hs := hh.size
      have hn : bigintNumber q.1 = q.1 := if_pos (by omega)
      rw [hn] at hr'
      exact ⟨_, r', _, hr', hh, hle, by omega, rfl, rfl⟩

theorem lengthOf_error (h : r.Holds bytes) {f : Flaw} (hp : payloadOf wireLen bytes = .error f) :
    (∃ e, r.readVarintNumber = .error e ∧ e.Thrown) ∨
      ∃ n r', r.readVarintNumber = .ok (n, r') ∧ r'.finish < r'.offset + n := by
  simp only [payloadOf, wireLen, wireVarint, wireI64, OfNat.ofNat_ne_zero, OfNat.ofNat_ne_one,
    if_false, if_true] at hp
  cases hv : varintOf 10 bytes with
  | error f => exact Or.inl (readVarintNumber_error h hv)
  | ok q =>
    right
    obtain ⟨r', hr', hh, hoff⟩ := readVarintNumber_ok h hv
    refine ⟨_, r', hr', ?_⟩
    have hb := hh.bounded
    have hs := hh.size
    by_cases hle : q.1 ≤ q.2.length
    · simp [hv, takeBytes, hle, Except.bind, Except.map] at hp
    · have := (bigintNumber_le_iff (n := q.1) hb).not.mpr hle
      omega

theorem readLengthDelimited_ok (h : r.Holds bytes) {s : List UInt8}
    (hp : payloadOf wireLen bytes = .ok (.len s, rest)) :
    ∃ r', r.readLengthDelimited = .ok (s, r') ∧ r'.Holds rest := by
  obtain ⟨n, r', after, hr', hh, hle, hlt, rfl, rfl⟩ := lengthOf_ok h hp
  refine ⟨r'.advance n, ?_, hh.advance n⟩
  simp only [readLengthDelimited, hr', bind, Except.bind, if_neg hlt, hh.bytesAt hle, pure,
    Except.pure]

theorem readLengthDelimited_error (h : r.Holds bytes) {f : Flaw}
    (hp : payloadOf wireLen bytes = .error f) :
    ∃ e, r.readLengthDelimited = .error e ∧ e.Thrown := by
  rcases lengthOf_error h hp with ⟨e, he, ht⟩ | ⟨n, r', hr', hlt⟩
  · exact ⟨e, by simp only [readLengthDelimited, he, bind, Except.bind], ht⟩
  · refine ⟨.lenOverruns, ?_, by simp [DecodeError.Thrown]⟩
    simp only [readLengthDelimited, hr', bind, Except.bind, if_pos hlt, throw, throwThe,
      MonadExceptOf.throw]

theorem readMessage_ok (h : r.Holds bytes) {s : List UInt8}
    (hp : payloadOf wireLen bytes = .ok (.len s, rest)) :
    ∃ m r', r.readMessage = .ok (m, r') ∧ m.Holds s ∧ r'.Holds rest := by
  obtain ⟨n, r', after, hr', hh, hle, hlt, rfl, rfl⟩ := lengthOf_ok h hp
  refine ⟨_, r'.advance n, ?_, hh.sub hle, hh.advance n⟩
  simp only [readMessage, hr', bind, Except.bind, if_neg hlt, pure, Except.pure]

theorem readMessage_error (h : r.Holds bytes) {f : Flaw}
    (hp : payloadOf wireLen bytes = .error f) : ∃ e, r.readMessage = .error e ∧ e.Thrown := by
  rcases lengthOf_error h hp with ⟨e, he, ht⟩ | ⟨n, r', hr', hlt⟩
  · exact ⟨e, by simp only [readMessage, he, bind, Except.bind], ht⟩
  · refine ⟨.messageOverruns, ?_, by simp [DecodeError.Thrown]⟩
    simp only [readMessage, hr', bind, Except.bind, if_pos hlt, throw, throwThe,
      MonadExceptOf.throw]

theorem payloadOf_wireI64_ok {p : Payload × List UInt8}
    (hp : payloadOf wireI64 bytes = .ok p) :
    8 ≤ bytes.length ∧ p = (.i64 (bytes.take 8), bytes.drop 8) := by
  simp only [payloadOf, wireVarint, wireI64, one_ne_zero, if_false, if_true] at hp
  cases ht : takeBytes 8 bytes with
  | error f => simp [ht, Except.map] at hp
  | ok q =>
    obtain ⟨hle, rfl⟩ := takeBytes_eq ht
    simp only [ht, Except.map] at hp
    cases hp
    exact ⟨hle, rfl⟩

theorem payloadOf_wireI64_error {f : Flaw} (hp : payloadOf wireI64 bytes = .error f) :
    bytes.length < 8 := by
  by_contra hle
  simp [payloadOf, wireVarint, wireI64, takeBytes, not_lt.mp hle, Except.map] at hp

theorem readFixed64Uint_ok (h : r.Holds bytes) {b : List UInt8}
    (hp : payloadOf wireI64 bytes = .ok (.i64 b, rest)) :
    ∃ r', r.readFixed64Uint = .ok (littleEndian b, r') ∧ r'.Holds rest := by
  obtain ⟨hle, heq⟩ := payloadOf_wireI64_ok hp
  cases heq
  have hs := h.size
  refine ⟨r.advance 8, ?_, h.advance 8⟩
  have hlt : ¬ r.finish < r.offset + 8 := by omega
  simp only [readFixed64Uint, if_neg hlt, bind, Except.bind, h.bytesAt hle, pure, Except.pure]

theorem readDouble_ok (h : r.Holds bytes) {b : List UInt8}
    (hp : payloadOf wireI64 bytes = .ok (.i64 b, rest)) :
    ∃ r', r.readDouble = .ok (doubleOfBits (littleEndian b), r') ∧ r'.Holds rest := by
  obtain ⟨hle, heq⟩ := payloadOf_wireI64_ok hp
  cases heq
  have hs := h.size
  refine ⟨r.advance 8, ?_, h.advance 8⟩
  have hlt : ¬ r.finish < r.offset + 8 := by omega
  simp only [readDouble, if_neg hlt, bind, Except.bind, h.bytesAt hle, pure, Except.pure]

theorem readFixed64Uint_error (h : r.Holds bytes) {f : Flaw}
    (hp : payloadOf wireI64 bytes = .error f) :
    ∃ e, r.readFixed64Uint = .error e ∧ e.Thrown := by
  have hlt := payloadOf_wireI64_error hp
  have hs := h.size
  refine ⟨.fixed64Overruns, ?_, by simp [DecodeError.Thrown]⟩
  have hlt' : r.finish < r.offset + 8 := by omega
  simp only [readFixed64Uint, if_pos hlt', bind, Except.bind, throw, throwThe, MonadExceptOf.throw]

theorem readDouble_error (h : r.Holds bytes) {f : Flaw}
    (hp : payloadOf wireI64 bytes = .error f) :
    ∃ e, r.readDouble = .error e ∧ e.Thrown := by
  have hlt := payloadOf_wireI64_error hp
  have hs := h.size
  refine ⟨.doubleOverruns, ?_, by simp [DecodeError.Thrown]⟩
  have hlt' : r.finish < r.offset + 8 := by omega
  simp only [readDouble, if_pos hlt', bind, Except.bind, throw, throwThe, MonadExceptOf.throw]

/-- A field of the format is skipped as the format has it. -/
theorem skip_ok (h : r.Holds bytes) {wireType : Nat} {p : Payload × List UInt8}
    (hp : payloadOf wireType bytes = .ok p) : ∃ r', r.skip wireType = .ok r' ∧ r'.Holds p.2 := by
  by_cases h0 : wireType = wireVarint
  · subst h0
    simp only [payloadOf, if_true] at hp
    cases hv : varintOf 10 bytes with
    | error f => simp [hv, Except.bind] at hp
    | ok q =>
      simp only [hv, Except.bind] at hp
      split at hp
      · cases hp
        obtain ⟨r', hr', hh, _⟩ := readVarint_ok h hv
        exact ⟨r', by simp only [skip, if_true, hr', Except.map], hh⟩
      · cases hp
  by_cases h1 : wireType = wireI64
  · subst h1
    obtain ⟨_, rfl⟩ := payloadOf_wireI64_ok hp
    exact ⟨r.advance 8, by simp only [skip, if_neg h0, if_true], h.advance 8⟩
  by_cases h2 : wireType = wireLen
  · subst h2
    obtain ⟨payload, after⟩ := p
    obtain ⟨s, rfl⟩ : ∃ s, payload = .len s := by
      simp only [payloadOf, if_neg h0, if_neg h1, if_true] at hp
      cases hv : varintOf 10 bytes with
      | error f => simp [hv, Except.bind] at hp
      | ok q =>
        cases ht : takeBytes q.1 q.2 with
        | error f => simp [hv, ht, Except.bind, Except.map] at hp
        | ok q' =>
          simp only [hv, ht, Except.bind, Except.map] at hp
          cases hp
          exact ⟨_, rfl⟩
    obtain ⟨n, r', after', hr', hh, _, _, _, rfl⟩ := lengthOf_ok h hp
    exact ⟨r'.advance n, by simp only [skip, if_neg h0, if_neg h1, if_true, hr', Except.map],
      hh.advance n⟩
  by_cases h5 : wireType = wireI32
  · subst h5
    simp only [payloadOf, if_neg h0, if_neg h1, if_neg h2, if_true] at hp
    cases ht : takeBytes 4 bytes with
    | error f => simp [ht, Except.map] at hp
    | ok q =>
      obtain ⟨_, rfl⟩ := takeBytes_eq ht
      simp only [ht, Except.map] at hp
      cases hp
      exact ⟨r.advance 4, by simp only [skip, if_neg h0, if_neg h1, if_neg h2, if_true],
        h.advance 4⟩
  · simp [payloadOf, h0, h1, h2, h5] at hp

end PbReader

end Reading

end OpenWop.Otlp
