import OpenWop.Js.Utf8Decode

/-!
# Decoding in parts

`TextDecoder` for UTF-8 takes its input whole or in chunks. In chunks it keeps the sequence a chunk
breaks off in, and whether the place of the byte order mark has passed; whole, it closes with
U+FFFD where the input breaks off. Nothing here names a program.
-/

namespace OpenWop.Js

section Parts

/-- The scalar values of a part of the input and the sequence it breaks off in. -/
def decodePart (p : Option PendingBytes) : List UInt8 → List Char × Option PendingBytes
  | [] => ([], p)
  | b :: rest =>
    let (chars, q) := nextByte p b.toNat
    let (more, r) := decodePart q rest
    (chars ++ more, r)

theorem decodePart_cons (p : Option PendingBytes) (b : UInt8) (rest : List UInt8) :
    decodePart p (b :: rest) = ((nextByte p b.toNat).1 ++
      (decodePart (nextByte p b.toNat).2 rest).1, (decodePart (nextByte p b.toNat).2 rest).2) :=
  rfl

theorem decodePart_append (p : Option PendingBytes) (a b : List UInt8) :
    decodePart p (a ++ b) = ((decodePart p a).1 ++ (decodePart (decodePart p a).2 b).1,
      (decodePart (decodePart p a).2 b).2) := by
  induction a generalizing p with
  | nil => rfl
  | cons u a ih => rw [List.cons_append, decodePart_cons, decodePart_cons, ih, List.append_assoc]

/-- The end of the input turns a sequence it breaks off in into U+FFFD. -/
def flushPending : Option PendingBytes → List Char
  | none => []
  | some _ => [replacementChar]

theorem decodeBytes_eq (p : Option PendingBytes) (bytes : List UInt8) :
    decodeBytes p bytes = (decodePart p bytes).1 ++ flushPending (decodePart p bytes).2 := by
  induction bytes generalizing p with
  | nil => cases p <;> rfl
  | cons b rest ih => rw [decodeBytes_cons, decodePart_cons, ih, List.append_assoc]

end Parts

section Mark

/-- The first scalar value is left out where it is the byte order mark. -/
def dropMark (seen : Bool) (chars : List Char) : List Char :=
  if seen then chars else if chars.head? = some '\uFEFF' then chars.tail else chars

theorem dropMark_append (seen : Bool) (a b : List Char) :
    dropMark seen (a ++ b) = dropMark seen a ++ dropMark (seen || !a.isEmpty) b := by
  cases seen with
  | true => rfl
  | false =>
    cases a with
    | nil => rfl
    | cons c a =>
      change (if some c = some '\uFEFF' then a ++ b else c :: (a ++ b)) =
        (if some c = some '\uFEFF' then a else c :: a) ++ b
      split
      · rfl
      · rfl

theorem dropMark_flushPending (seen : Bool) (p : Option PendingBytes) :
    dropMark seen (flushPending p) = flushPending p := by
  cases p with
  | none => cases seen <;> rfl
  | some p => cases seen <;> rfl

end Mark

section Decoder

/-- What `new TextDecoder('utf-8')` keeps between two chunks. -/
structure TextDecoder where
  pending : Option PendingBytes
  bomSeen : Bool

def TextDecoder.fresh : TextDecoder := ⟨none, false⟩

/-- `decoder.decode(value, { stream: true })`. -/
def TextDecoder.stream (d : TextDecoder) (value : List UInt8) : JsString × TextDecoder :=
  let (chars, pending) := decodePart d.pending value
  ((dropMark d.bomSeen chars).flatMap utf16Units, ⟨pending, d.bomSeen || !chars.isEmpty⟩)

/-- `new TextDecoder('utf-8').decode(bytes)`. -/
def decodeText (bytes : List UInt8) : JsString :=
  (dropMark false (utf8Decode bytes)).flatMap utf16Units

/-- Two chunks are decoded like one. -/
theorem TextDecoder.stream_append (d : TextDecoder) (a b : List UInt8) :
    d.stream (a ++ b) = ((d.stream a).1 ++ ((d.stream a).2.stream b).1,
      ((d.stream a).2.stream b).2) := by
  have hseen : ∀ chars more : List Char, (d.bomSeen || !(chars ++ more).isEmpty) =
      (d.bomSeen || !chars.isEmpty || !more.isEmpty) := by
    intro chars more
    cases chars with
    | nil => simp
    | cons c chars => simp
  simp only [TextDecoder.stream, decodePart_append, dropMark_append, List.flatMap_append, hseen]

/-- Whole, the input is decoded as in chunks, up to a last U+FFFD. -/
theorem decodeText_eq (bytes : List UInt8) : ∃ last, decodeText bytes =
    (TextDecoder.fresh.stream bytes).1 ++ last ∧ (last = [] ∨ last = [0xfffd]) := by
  refine ⟨(flushPending (decodePart none bytes).2).flatMap utf16Units, ?_, ?_⟩
  · rw [decodeText, utf8Decode, decodeBytes_eq, dropMark_append, dropMark_flushPending,
      List.flatMap_append]
    rfl
  · cases (decodePart none bytes).2 with
    | none => exact Or.inl rfl
    | some p => exact Or.inr rfl

end Decoder

end OpenWop.Js
