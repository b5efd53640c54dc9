import OpenWop.Js.JsonGrammar
import OpenWop.Js.Utf8Decode

/-!
# The path projection of a bound id

Every byte of an id that is not passed through is written as `~` and two hexadecimal digits. The
projection is injective and is read back, except for a byte order mark that leads the id: the
decoder drops it.
-/

namespace OpenWop.Identity

open OpenWop.Js OpenWop.Js.Grammar

section Projection

/-- `PASSTHROUGH`: unreserved, without `~`. -/
def isPassthrough (u : UInt16) : Bool :=
  (65 ≤ u && u ≤ 90) || (97 ≤ u && u ≤ 122) || (48 ≤ u && u ≤ 57) ||
    u = unit '.' || u = unit '_' || u = unit '-'

/-- An upper-case hexadecimal digit. -/
def upperHexDigit (n : Nat) : UInt16 := UInt16.ofNat (if n < 10 then 48 + n else 55 + n)

/-- How a byte of the id is written. -/
def projectByte (b : UInt8) : JsString :=
  let ch := UInt16.ofNat b.toNat
  if b < 0x80 && isPassthrough ch then [ch]
  else [unit '~', upperHexDigit (b.toNat / 16), upperHexDigit (b.toNat % 16)]

/-- `projectBoundId`. -/
def projectBoundId (id : JsString) : JsString := (utf8 id).flatMap projectByte

end Projection

section Reading

/-- Why `unprojectBoundId` throws. -/
inductive BoundIdRefusal where
  /-- A `~` at that index that does not introduce two hexadecimal digits. -/
  | strayMarker (index : Nat)
  /-- The bytes are no UTF-8. -/
  | malformed
  deriving DecidableEq, Repr

/-- The message; the second one is the decoder's own. -/
def BoundIdRefusal.message : BoundIdRefusal → JsString
  | .strayMarker index =>
    js "bound-id projection: '~' at index " ++ decimal index ++ js " is not followed by two hex digits"
  | .malformed => js "The encoded data was not valid for encoding utf-8"

/-- The index of the first `~` the scan finds without two hexadecimal digits after it. -/
def strayMarker (i : Nat) : JsString → Option Nat
  | [] => none
  | u :: s =>
    if u = unit '~' then
      match s with
      | a :: b :: rest => if isHexDigit a && isHexDigit b then strayMarker (i + 3) rest else some i
      | _ => some i
    else strayMarker (i + 1) s

/-- The bytes of a segment without stray marker. -/
def segmentBytes : JsString → List UInt8
  | [] => []
  | u :: s =>
    if u = unit '~' then
      match s with
      | a :: b :: rest => UInt8.ofNat (hexDigitValue a * 16 + hexDigitValue b) :: segmentBytes rest
      | _ => []
    else utf8 [u] ++ segmentBytes s

/-- `TextDecoder.decode` with `fatal`: bytes that are not those of their own reading are refused,
and a leading byte order mark is dropped. -/
def textDecode (bytes : List UInt8) : Option JsString :=
  let chars := utf8Decode bytes
  if chars.flatMap String.utf8EncodeChar = bytes then
    some ((if chars.head? = some '\uFEFF' then chars.tail else chars).flatMap utf16Units)
  else none

/-- `unprojectBoundId`. -/
def unprojectBoundId (segment : JsString) : Except BoundIdRefusal JsString :=
  match strayMarker 0 segment with
  | some i => .error (.strayMarker i)
  | none =>
    match textDecode (segmentBytes segment) with
    | some id => .ok id
    | none => .error .malformed

end Reading

section Bytes

theorem hexDigitValue_upperHexDigit {n : Nat} (h : n < 16) :
    isHexDigit (upperHexDigit n) = true ∧ hexDigitValue (upperHexDigit n) = n := by
  interval_cases n <;> decide

theorem utf8_of_lt {b : UInt8} (h : b < 0x80) : utf8 [UInt16.ofNat b.toNat] = [b] := by
  have hlt := UInt8.lt_iff_toNat_lt.mp h
  have h80 : (0x80 : UInt8).toNat = 0x80 := rfl
  rw [h80] at hlt
  have hall : ∀ n : Fin 0x80, utf8 [UInt16.ofNat n.val] = [UInt8.ofNat n.val] := by decide
  have hb := hall ⟨b.toNat, hlt⟩
  rwa [UInt8.ofNat_toNat] at hb

theorem isPassthrough_ne_marker {u : UInt16} (h : isPassthrough u = true) : u ≠ unit '~' := by
  rintro rfl
  exact absurd h (by decide)

theorem segmentBytes_of_ne {u : UInt16} (h : u ≠ unit '~') (s : JsString) :
    segmentBytes (u :: s) = utf8 [u] ++ segmentBytes s := by
  conv_lhs => unfold segmentBytes
  rw [if_neg h]

theorem strayMarker_of_ne {u : UInt16} (h : u ≠ unit '~') (s : JsString) (i : Nat) :
    strayMarker i (u :: s) = strayMarker (i + 1) s := by
  conv_lhs => unfold strayMarker
  rw [if_neg h]

/-- What a byte is written as reads as that byte. -/
theorem segmentBytes_projectByte (b : UInt8) (s : JsString) :
    segmentBytes (projectByte b ++ s) = b :: segmentBytes s := by
  rw [projectByte]
  split
  · next h =>
    rw [Bool.and_eq_true, decide_eq_true_eq] at h
    rw [List.singleton_append, segmentBytes_of_ne (isPassthrough_ne_marker h.2), utf8_of_lt h.1]
    rfl
  · have hlt := b.toNat_lt
    have hhi := hexDigitValue_upperHexDigit (n := b.toNat / 16) (by omega)
    have hlo := hexDigitValue_upperHexDigit (n := b.toNat % 16) (by omega)
    have hvalue : b.toNat / 16 * 16 + b.toNat % 16 = b.toNat := by omega
    simp only [List.cons_append, List.nil_append, segmentBytes, if_true, hhi.2, hlo.2, hvalue,
      UInt8.ofNat_toNat]

/-- What a byte is written as has no stray marker. -/
theorem strayMarker_projectByte (b : UInt8) (s : JsString) (i : Nat) :
    ∃ j, strayMarker i (projectByte b ++ s) = strayMarker j s := by
  rw [projectByte]
  split
  · next h =>
    rw [Bool.and_eq_true] at h
    exact ⟨i + 1, strayMarker_of_ne (isPassthrough_ne_marker h.2) s i⟩
  · have hlt := b.toNat_lt
    have hhi := hexDigitValue_upperHexDigit (n := b.toNat / 16) (by omega)
    have hlo := hexDigitValue_upperHexDigit (n := b.toNat % 16) (by omega)
    refine ⟨i + 3, ?_⟩
    simp only [List.cons_append, List.nil_append, strayMarker, if_true, hhi.1, hlo.1, Bool.and_self]

theorem segmentBytes_flatMap (bytes : List UInt8) :
    segmentBytes (bytes.flatMap projectByte) = bytes := by
  induction bytes with
  | nil => rfl
  | cons b bytes ih => rw [List.flatMap_cons, segmentBytes_projectByte, ih]

theorem strayMarker_flatMap (bytes : List UInt8) (i : Nat) :
    strayMarker i (bytes.flatMap projectByte) = none := by
  induction bytes generalizing i with
  | nil => rfl
  | cons b bytes ih =>
    obtain ⟨j, hj⟩ := strayMarker_projectByte b (bytes.flatMap projectByte) i
    rw [List.flatMap_cons, hj, ih]

end Bytes

section Faithful

/-- A unit of the unreserved set. -/
def isUnreserved (u : UInt16) : Bool := isPassthrough u || u = unit '~'

/-- The marker is followed by two hexadecimal digits. -/
def IntroducesByte (after : JsString) : Prop :=
  ∃ a b rest, after = a :: b :: rest ∧ isHexDigit a = true ∧ isHexDigit b = true

/-- Somewhere in the segment a marker introduces no byte. -/
def HasStrayMarker (segment : JsString) : Prop :=
  ∃ before after, segment = before ++ unit '~' :: after ∧ ¬ IntroducesByte after

/-- The id is read back from a segment of its own. -/
structure Faithful (id : JsString) : Prop where
  readBack : unprojectBoundId (projectBoundId id) = .ok id
  segment : projectBoundId id ≠ [] ∧ ∀ u ∈ projectBoundId id, isUnreserved u = true
  own : ∀ id', isWellFormed id' = true → projectBoundId id' = projectBoundId id → id' = id

theorem isUnreserved_upperHexDigit {n : Nat} (h : n < 16) : isUnreserved (upperHexDigit n) = true := by
  interval_cases n <;> decide

theorem isUnreserved_of_mem_projectByte {b : UInt8} {u : UInt16} (h : u ∈ projectByte b) :
    isUnreserved u = true := by
  have hlt := b.toNat_lt
  rw [projectByte] at h
  split at h
  · next hpass =>
    rw [Bool.and_eq_true] at hpass
    rw [List.mem_singleton.mp h, isUnreserved, hpass.2, Bool.true_or]
  · simp only [List.mem_cons, List.not_mem_nil, or_false] at h
    rcases h with rfl | rfl | rfl
    · decide
    · exact isUnreserved_upperHexDigit (by omega)
    · exact isUnreserved_upperHexDigit (by omega)

theorem scalars_ne_nil {s : JsString} (h : s ≠ []) : scalars s ≠ [] := by
  match s, h with
  | [u], _ => simp [scalars]
  | u :: v :: s, _ =>
    rw [scalars]
    split <;> simp

/-- The projection of an id that is not empty is one segment of unreserved characters. -/
theorem projectBoundId_segment {id : JsString} (hne : id ≠ []) :
    projectBoundId id ≠ [] ∧ ∀ u ∈ projectBoundId id, isUnreserved u = true := by
  constructor
  · intro h
    have hbytes := segmentBytes_flatMap (utf8 id)
    rw [projectBoundId] at h
    rw [h] at hbytes
    have hchars := utf8Decode_flatMap (scalars id)
    rw [← utf8, ← hbytes] at hchars
    exact scalars_ne_nil hne hchars.symm
  · intro u hu
    obtain ⟨b, _, hb⟩ := List.mem_flatMap.mp hu
    exact isUnreserved_of_mem_projectByte hb

/-- Ids with one projection are one id. -/
theorem projectBoundId_inj {id id' : JsString} (h : isWellFormed id = true)
    (h' : isWellFormed id' = true) (heq : projectBoundId id' = projectBoundId id) : id' = id := by
  have hbytes := congrArg segmentBytes heq
  rw [projectBoundId, projectBoundId, segmentBytes_flatMap, segmentBytes_flatMap] at hbytes
  exact utf8_inj h' h hbytes

/-- What is read back is the id without a leading byte order mark. -/
theorem unprojectBoundId_projectBoundId {id : JsString} (h : isWellFormed id = true) :
    unprojectBoundId (projectBoundId id) = .ok (if id.head? = some 0xfeff then id.tail else id) := by
  rw [unprojectBoundId, projectBoundId, strayMarker_flatMap, segmentBytes_flatMap, textDecode, utf8,
    utf8Decode_flatMap]
  have hmark : utf16Units '\uFEFF' = [0xfeff] := by decide
  have hunits := flatMap_utf16Units_scalars h
  by_cases hhead : id.head? = some 0xfeff
  · obtain ⟨rest, rfl⟩ := List.head?_eq_some_iff.mp hhead
    have hscalars : scalars (0xfeff :: rest) = '\uFEFF' :: scalars rest :=
      scalars_cons_of_not_high (by decide) rest
    rw [hscalars, List.flatMap_cons, hmark] at hunits
    simp only [hscalars, List.head?_cons, if_true, List.tail_cons]
    have hrest : (scalars rest).flatMap utf16Units = rest := List.append_cancel_left hunits
    rw [hrest]
  · have hscalars : (scalars id).head? ≠ some '\uFEFF' := by
      intro hc
      obtain ⟨rest, hrest⟩ := List.head?_eq_some_iff.mp hc
      rw [hrest, List.flatMap_cons, hmark] at hunits
      exact hhead (by rw [← hunits]; rfl)
    simp only [if_neg hscalars, if_neg hhead, if_true, hunits]

/-- The scan finds every stray marker. -/
theorem introducesByte_of_strayMarker_eq_none {segment : JsString} {i : Nat}
    (h : strayMarker i segment = none) {before after : JsString}
    (hsplit : segment = before ++ unit '~' :: after) : IntroducesByte after := by
  fun_induction strayMarker i segment generalizing before with
  | case1 => simp at hsplit
  | case2 i a b rest hhex ih =>
    rw [Bool.and_eq_true] at hhex
    have hnot : ∀ u, isHexDigit u = true → u ≠ unit '~' := by
      rintro u hu rfl
      exact absurd hu (by decide)
    match before, hsplit with
    | [], hsplit => exact ⟨a, b, rest, (List.cons.inj hsplit).2.symm, hhex.1, hhex.2⟩
    | [_], hsplit =>
      simp only [List.cons_append, List.nil_append, List.cons.injEq] at hsplit
      exact absurd hsplit.2.1 (hnot a hhex.1)
    | [_, _], hsplit =>
      simp only [List.cons_append, List.nil_append, List.cons.injEq] at hsplit
      exact absurd hsplit.2.2.1 (hnot b hhex.2)
    | _ :: _ :: _ :: before, hsplit =>
      simp only [List.cons_append, List.cons.injEq] at hsplit
      exact ih h hsplit.2.2.2
  | case3 => cases h
  | case4 => cases h
  | case5 i u s hu ih =>
    cases before with
    | nil => exact absurd (List.cons.inj hsplit).1 hu
    | cons w before => exact ih h (List.cons.inj hsplit).2

/-- A segment with a stray marker is refused. -/
theorem unprojectBoundId_refuses {segment : JsString} (h : HasStrayMarker segment) :
    ∃ i, unprojectBoundId segment = .error (.strayMarker i) := by
  obtain ⟨before, after, hsplit, hafter⟩ := h
  cases hstray : strayMarker 0 segment with
  | none => exact absurd (introducesByte_of_strayMarker_eq_none hstray hsplit) hafter
  | some i => exact ⟨i, by rw [unprojectBoundId, hstray]⟩

/-- Every stray marker is refused, and a well-formed id that is not empty has a segment of its own
from which it is read back exactly when no byte order mark leads it. -/
theorem faithful_iff (segment id : JsString) :
    (HasStrayMarker segment → ∃ refusal, unprojectBoundId segment = .error refusal) ∧
      (id ≠ [] → isWellFormed id = true → (Faithful id ↔ id.head? ≠ some 0xfeff)) := by
  refine ⟨fun h => ?_, fun hne h => ⟨fun hfaithful hhead => ?_, fun hhead => ?_⟩⟩
  · obtain ⟨i, hi⟩ := unprojectBoundId_refuses h
    exact ⟨_, hi⟩
  · have hread := hfaithful.readBack
    rw [unprojectBoundId_projectBoundId h, if_pos hhead] at hread
    have hlength := congrArg List.length (Except.ok.inj hread)
    rw [List.length_tail] at hlength
    have hpos := List.length_pos_iff.mpr hne
    omega
  · refine ⟨?_, projectBoundId_segment hne, fun id' h' heq => projectBoundId_inj h h' heq⟩
    rw [unprojectBoundId_projectBoundId h, if_neg hhead]

/-- A tenant-bound id with a marker of its own. -/
theorem tenantId_faithful : Faithful (js "anon:a~b/1") :=
  ((faithful_iff [] _).2 (by decide) (by decide)).mpr (by decide)

/-- A byte order mark before a letter is lost. -/
theorem markedId_lost : projectBoundId (js "\uFEFFa") = js "~EF~BB~BFa" ∧
    unprojectBoundId (projectBoundId (js "\uFEFFa")) = .ok (js "a") := by
  have hwellFormed : isWellFormed (js "\uFEFFa") = true := by decide
  have hread := unprojectBoundId_projectBoundId hwellFormed
  exact ⟨by decide, hread⟩

end Faithful

end OpenWop.Identity
