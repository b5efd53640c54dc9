import OpenWop.Core.Loop
import OpenWop.Js.Text

/-!
# gRPC message framing

A frame is a flag byte, a big-endian length of four bytes and the payload. The reader
takes frames from an offset that it moves past each payload. It reads the length as a
signed word: a length with its top bit set moves the offset back.
-/

namespace OpenWop.Otlp

open OpenWop.Core OpenWop.Js

section Frames

/-- A byte of the length: `(n >>> shift) & 0xff`. -/
def lengthByte (n shift : Nat) : UInt8 := UInt8.ofNat (n % 2 ^ 32 / 2 ^ shift % 256)

/-- `frameMessage`. -/
def frameMessage (payload : List UInt8) : List UInt8 :=
  [0, lengthByte payload.length 24, lengthByte payload.length 16, lengthByte payload.length 8,
    lengthByte payload.length 0] ++ payload

/-- A range of a buffer, as `subarray` gives it. -/
structure Slice where
  start : Nat
  stop : Nat
  deriving DecidableEq, Repr

/-- A relative offset of `subarray`. -/
def clampOffset (size : Nat) (offset : Int) : Nat :=
  if offset < 0 then (size + offset).toNat else min offset.toNat size

/-- `subarray`. -/
def subarray (size : Nat) (start stop : Int) : Slice where
  start := clampOffset size start
  stop := max (clampOffset size start) (clampOffset size stop)

/-- The bytes of a range. -/
def Slice.bytes (buf : List UInt8) (s : Slice) : List UInt8 := (buf.take s.stop).drop s.start

/-- `buf[i]`. -/
def byteAt? (buf : List UInt8) (i : Int) : Option UInt8 :=
  if 0 ≤ i then buf[i.toNat]? else none

/-- Why frames are refused. -/
inductive FrameError where
  | header (offset remaining : Int)
  | compressed (offset : Int) (flag : Option UInt8)
  | payload (length offset remaining : Int)
  deriving DecidableEq, Repr

/-- An integer in a message. -/
def integerText (n : Int) : JsString :=
  if n < 0 then unit '-' :: decimal (-n).toNat else decimal n.toNat

/-- The message of the error thrown. -/
def FrameError.message : FrameError → JsString
  | .header offset remaining => js "gRPC frame truncated: need 5-byte header at offset " ++
      integerText offset ++ js ", have " ++ integerText remaining
  | .compressed offset flag => js "gRPC frame at offset " ++ integerText offset ++
      js " has compression flag " ++ (flag.elim (js "undefined") fun b => decimal b.toNat) ++
      js "; only identity (0) is supported"
  | .payload length offset remaining => js "gRPC frame payload truncated: declared length " ++
      integerText length ++ js " at offset " ++ integerText offset ++ js ", but only " ++
      integerText remaining ++ js " bytes remain"

/-- The length a header declares: the bytes joined by `|`, which gives a signed word. -/
def declaredLength (buf : List UInt8) (i : Int) : Int :=
  let byte := fun k => ((byteAt? buf (i + k)).getD 0).toUInt32
  (byte 1 <<< 24 ||| byte 2 <<< 16 ||| byte 3 <<< 8 ||| byte 4).toInt32.toInt

/-- The state of the loop of `unframeMessages`. -/
structure FrameState where
  i : Int
  out : List Slice

/-- One turn of the loop. -/
def unframeStep (buf : List UInt8) (s : FrameState) :
    FrameState ⊕ Except FrameError (List Slice) :=
  if s.i < buf.length then
    if buf.length < s.i + 5 then .inr (.error (.header s.i (buf.length - s.i)))
    else if byteAt? buf s.i ≠ some 0 then .inr (.error (.compressed s.i (byteAt? buf s.i)))
    else
      let len := declaredLength buf s.i
      let payloadStart := s.i + 5
      let payloadEnd := payloadStart + len
      if buf.length < payloadEnd then
        .inr (.error (.payload len (s.i + 1) (buf.length - payloadStart)))
      else .inl ⟨payloadEnd, s.out ++ [subarray buf.length payloadStart payloadEnd]⟩
  else .inr (.ok s.out)

/-- `unframeMessages`, where it returns or throws. -/
def UnframeMessages (buf : List UInt8) (r : Except FrameError (List Slice)) : Prop :=
  Returns (unframeStep buf) ⟨0, []⟩ r

end Frames

section Words

/-- The word of four bytes. -/
def word (b₁ b₂ b₃ b₄ : UInt8) : Nat :=
  b₁.toNat * 2 ^ 24 + b₂.toNat * 2 ^ 16 + b₃.toNat * 2 ^ 8 + b₄.toNat

theorem toNat_joined (b₁ b₂ b₃ b₄ : UInt8) :
    (b₁.toUInt32 <<< 24 ||| b₂.toUInt32 <<< 16 ||| b₃.toUInt32 <<< 8 ||| b₄.toUInt32).toNat =
      word b₁ b₂ b₃ b₄ := by
  have h₁ := b₁.toNat_lt
  have h₂ := b₂.toNat_lt
  have h₃ := b₃.toNat_lt
  have h₄ := b₄.toNat_lt
  have hlow : b₃.toNat * 2 ^ 8 ||| b₄.toNat = b₃.toNat * 2 ^ 8 + b₄.toNat := by
    rw [Nat.mul_comm, Nat.two_pow_add_eq_or_of_lt h₄]
  have hmid : b₂.toNat * 2 ^ 16 ||| (b₃.toNat * 2 ^ 8 + b₄.toNat) =
      b₂.toNat * 2 ^ 16 + (b₃.toNat * 2 ^ 8 + b₄.toNat) := by
    rw [Nat.mul_comm (b₂.toNat), Nat.two_pow_add_eq_or_of_lt (by omega)]
  have hhigh : b₁.toNat * 2 ^ 24 ||| (b₂.toNat * 2 ^ 16 + (b₃.toNat * 2 ^ 8 + b₄.toNat)) =
      b₁.toNat * 2 ^ 24 + (b₂.toNat * 2 ^ 16 + (b₃.toNat * 2 ^ 8 + b₄.toNat)) := by
    rw [Nat.mul_comm (b₁.toNat), Nat.two_pow_add_eq_or_of_lt (by omega)]
  have hshift : ∀ (b : UInt8) (k : Nat), k ≤ 24 → b.toNat <<< k % 2 ^ 32 = b.toNat * 2 ^ k := by
    intro b k hk
    rw [Nat.shiftLeft_eq, Nat.mod_eq_of_lt]
    have hb := b.toNat_lt
    calc b.toNat * 2 ^ k ≤ 255 * 2 ^ 24 :=
          Nat.mul_le_mul (by omega) (Nat.pow_le_pow_right (by decide) hk)
      _ < 2 ^ 32 := by decide
  simp only [UInt32.toNat_or, UInt32.toNat_shiftLeft, UInt8.toNat_toUInt32, UInt32.reduceToNat,
    Nat.reduceMod, hshift _ _ (Nat.le_refl 24), hshift _ 16 (by decide), hshift _ 8 (by decide)]
  rw [Nat.or_assoc, Nat.or_assoc, hlow, hmid, hhigh, word]
  omega

/-- A word read as signed. -/
def signed (w : Nat) : Int := if w < 2 ^ 31 then w else w - 2 ^ 32

theorem toInt_toInt32 (w : UInt32) : w.toInt32.toInt = signed w.toNat := by
  have h : w.toInt32.toInt = w.toBitVec.toInt := rfl
  rw [h, BitVec.toInt_eq_toNat_cond, signed]
  simp only [UInt32.toNat_toBitVec]
  split <;> split <;> omega
theorem word_lengthByte {n : Nat} (h : n < 2 ^ 32) :
    word (lengthByte n 24) (lengthByte n 16) (lengthByte n 8) (lengthByte n 0) = n := by
  simp only [word, lengthByte, UInt8.toNat_ofNat']
  omega

theorem word_lt (b₁ b₂ b₃ b₄ : UInt8) : word b₁ b₂ b₃ b₄ < 2 ^ 32 := by
  have h₁ := b₁.toNat_lt
  have h₂ := b₂.toNat_lt
  have h₃ := b₃.toNat_lt
  have h₄ := b₄.toNat_lt
  unfold word
  omega

theorem signed_of_lt {w : Nat} (h : w < 2 ^ 31) : signed w = w := if_pos h

theorem signed_of_le {w : Nat} (h : 2 ^ 31 ≤ w) : signed w = w - 2 ^ 32 := if_neg (Nat.not_lt.mpr h)

end Words

section Steps

variable {buf pre rest payload : List UInt8} {i : Int} {s t : FrameState}

/-- A byte of the header at an offset. -/
def headerByte (buf : List UInt8) (i k : Int) : UInt8 := (byteAt? buf (i + k)).getD 0

theorem declaredLength_eq (buf : List UInt8) (i : Int) : declaredLength buf i =
    signed (word (headerByte buf i 1) (headerByte buf i 2) (headerByte buf i 3)
      (headerByte buf i 4)) := by
  rw [declaredLength, toInt_toInt32, toNat_joined]
  rfl

theorem byteAt?_append (k : Nat) : byteAt? (pre ++ rest) (pre.length + k) = rest[k]? := by
  rw [byteAt?, if_pos (by omega)]
  have hk : (pre.length + k : Int).toNat = pre.length + k := by omega
  rw [hk, List.getElem?_append_right (by omega), Nat.add_sub_cancel_left]

/-- The length that a frame declares is its payload's, as a signed word. -/
theorem declaredLength_frame (h : payload.length < 2 ^ 32) :
    declaredLength (pre ++ (frameMessage payload ++ rest)) pre.length = signed payload.length := by
  have hbyte : ∀ k : Nat, headerByte (pre ++ (frameMessage payload ++ rest)) pre.length k =
      ((frameMessage payload ++ rest)[k]?).getD 0 := by
    intro k
    rw [headerByte, byteAt?_append]
  have h₁ := hbyte 1
  have h₂ := hbyte 2
  have h₃ := hbyte 3
  have h₄ := hbyte 4
  rw [declaredLength_eq]
  simp only [Nat.cast_ofNat, Nat.cast_one] at h₁ h₂ h₃ h₄
  rw [h₁, h₂, h₃, h₄]
  simp only [frameMessage, List.cons_append, List.nil_append, List.getElem?_cons_succ,
    List.getElem?_cons_zero, Option.getD_some]
  rw [word_lengthByte h]

/-- A frame the loop refuses: its header is not complete, its flag is not zero or its payload
runs past the end. -/
def IsRefused (buf : List UInt8) (i : Int) : Prop := i < buf.length ∧
  (buf.length < i + 5 ∨ byteAt? buf i ≠ some 0 ∨ buf.length < i + 5 + declaredLength buf i)

/-- A turn refuses the frame, goes past it or, at the end, returns. -/
theorem unframeStep_cases (buf : List UInt8) (s : FrameState) :
    (IsRefused buf s.i ∧ ∃ e, unframeStep buf s = .inr (.error e)) ∨
    (byteAt? buf s.i = some 0 ∧ s.i + 5 ≤ buf.length ∧
      s.i + 5 + declaredLength buf s.i ≤ buf.length ∧
      unframeStep buf s = .inl ⟨s.i + 5 + declaredLength buf s.i, s.out ++
        [subarray buf.length (s.i + 5) (s.i + 5 + declaredLength buf s.i)]⟩) ∨
    (buf.length ≤ s.i ∧ unframeStep buf s = .inr (.ok s.out)) := by
  unfold unframeStep
  split
  · next hlt =>
    split
    · next h => exact Or.inl ⟨⟨hlt, Or.inl h⟩, _, rfl⟩
    · next hheader =>
      split
      · next h => exact Or.inl ⟨⟨hlt, Or.inr (Or.inl h)⟩, _, rfl⟩
      · next hflag =>
        dsimp only
        split
        · next h => exact Or.inl ⟨⟨hlt, Or.inr (Or.inr h)⟩, _, rfl⟩
        · next h => exact Or.inr (Or.inl ⟨not_not.mp hflag, by omega, by omega, rfl⟩)
  · next h => exact Or.inr (Or.inr ⟨by omega, rfl⟩)

theorem signed_le (w : Nat) : signed w ≤ w := by
  unfold signed
  split <;> omega

@[simp] theorem length_frameMessage (payload : List UInt8) :
    (frameMessage payload).length = 5 + payload.length := by
  rw [frameMessage, List.length_append]
  rfl

/-- The turn at a frame. -/
theorem unframeStep_frame (h : payload.length < 2 ^ 32) (out : List Slice)
    (hbuf : buf = pre ++ (frameMessage payload ++ rest)) :
    unframeStep buf ⟨pre.length, out⟩ = .inl ⟨pre.length + 5 + signed payload.length,
      out ++ [subarray buf.length (pre.length + 5) (pre.length + 5 + signed payload.length)]⟩ := by
  have hlen : declaredLength buf pre.length = signed payload.length := by
    rw [hbuf, declaredLength_frame h]
  have hflag : byteAt? buf pre.length = some 0 := by
    have hzero : byteAt? (pre ++ (frameMessage payload ++ rest)) (pre.length + 0) = _ :=
      byteAt?_append 0
    simpa [hbuf, frameMessage] using hzero
  have hsize : buf.length = pre.length + (5 + payload.length + rest.length) := by simp [hbuf]
  have hle := signed_le payload.length
  obtain ⟨⟨-, hr⟩, -⟩ | ⟨-, -, -, hstep⟩ | ⟨hend, -⟩ := unframeStep_cases buf ⟨pre.length, out⟩
  · dsimp only at hr
    rw [hlen] at hr
    obtain hr | hr | hr := hr
    · omega
    · exact absurd hflag hr
    · omega
  · rw [hstep, hlen]
  · dsimp only at hend
    omega

end Steps

section RoundTrip

variable {buf pre : List UInt8} {out : List Slice} {payloads : List (List UInt8)}

/-- Where the payloads stand, from an offset. -/
def slicesAt : Nat → List (List UInt8) → List Slice
  | _, [] => []
  | k, payload :: rest => ⟨k + 5, k + 5 + payload.length⟩ :: slicesAt (k + 5 + payload.length) rest

theorem clampOffset_of_nonneg {n : Nat} {a : Int} (h : 0 ≤ a) :
    clampOffset n a = min a.toNat n := if_neg (Int.not_lt.mpr h)

theorem subarray_of_le {size a b : Nat} (hab : a ≤ b) (hb : b ≤ size) :
    subarray size a b = ⟨a, b⟩ := by
  rw [subarray, clampOffset_of_nonneg (by omega), clampOffset_of_nonneg (by omega), Slice.mk.injEq]
  omega

theorem map_bytes_slicesAt (pre : List UInt8)
    (hbuf : buf = pre ++ payloads.flatMap frameMessage) :
    (slicesAt pre.length payloads).map (Slice.bytes buf) = payloads := by
  induction payloads generalizing pre with
  | nil => rfl
  | cons payload rest ih =>
    have hrest : buf = (pre ++ frameMessage payload) ++ rest.flatMap frameMessage := by
      simp [hbuf]
    have htail := ih _ hrest
    rw [List.length_append, length_frameMessage, ← Nat.add_assoc] at htail
    rw [slicesAt, List.map_cons, htail]
    have htake : buf.take (pre.length + 5 + payload.length) = pre ++ frameMessage payload := by
      rw [hrest]
      apply List.take_left'
      rw [List.length_append, length_frameMessage, Nat.add_assoc]
    have hdrop : (frameMessage payload).drop 5 = payload := rfl
    rw [Slice.bytes, htake, ← List.drop_drop, List.drop_left, hdrop]

/-- The loop goes past short frames. -/
theorem leads_frames {rest : List UInt8} (pre : List UInt8) (out : List Slice)
    (h : ∀ p ∈ payloads, p.length < 2 ^ 31)
    (hbuf : buf = pre ++ (payloads.flatMap frameMessage ++ rest)) :
    Leads (unframeStep buf) ⟨pre.length, out⟩
      ⟨(pre ++ payloads.flatMap frameMessage).length, out ++ slicesAt pre.length payloads⟩ := by
  induction payloads generalizing pre out with
  | nil =>
    rw [List.flatMap_nil, slicesAt, List.append_nil, List.append_nil]
    exact .refl
  | cons payload more ih =>
    rw [List.forall_mem_cons] at h
    have hbuf' : buf = (pre ++ frameMessage payload) ++ (more.flatMap frameMessage ++ rest) := by
      simp [hbuf]
    have hstep := unframeStep_frame (by omega) out
      (hbuf'.trans (List.append_assoc _ _ _) : buf = pre ++ (frameMessage payload ++ _))
    have hsize : pre.length + 5 + payload.length ≤ buf.length := by
      have hlen := congrArg List.length hbuf'
      simp only [List.length_append, length_frameMessage] at hlen
      omega
    have hnext := ih _ (out ++ [⟨pre.length + 5, pre.length + 5 + payload.length⟩]) h.2 hbuf'
    have hrange := subarray_of_le (Nat.le_add_right (pre.length + 5) payload.length) hsize
    rw [signed_of_lt h.1] at hstep
    push_cast at hrange
    rw [hrange] at hstep
    apply Leads.head hstep
    simpa [slicesAt, Nat.add_assoc, Int.add_assoc] using hnext

theorem out_le_run {s t : FrameState} (h : Leads (unframeStep buf) s t) : s.out <+: t.out := by
  refine h.invariant (I := fun t => s.out <+: t.out) List.prefix_rfl fun t u ht hstep => ?_
  obtain ⟨-, e, he⟩ | ⟨-, -, -, he⟩ | ⟨-, he⟩ := unframeStep_cases buf t
  · cases he.symm.trans hstep
  · obtain rfl := Sum.inl.inj (he.symm.trans hstep)
    exact ht.trans (List.prefix_append _ _)
  · cases he.symm.trans hstep

/-- What is returned is what the last state holds. -/
theorem exists_leads_of_returns {s : FrameState} {slices : List Slice}
    (h : Returns (unframeStep buf) s (.ok slices)) :
    ∃ i : Int, buf.length ≤ i ∧ Leads (unframeStep buf) s ⟨i, slices⟩ := by
  obtain ⟨⟨i, out⟩, hlead, hlast⟩ := h.exists_last
  obtain ⟨-, e, he⟩ | ⟨-, -, -, he⟩ | ⟨hend, he⟩ := unframeStep_cases buf ⟨i, out⟩
  · cases he.symm.trans hlast
  · cases he.symm.trans hlast
  · obtain rfl := Except.ok.inj (Sum.inr.inj (he.symm.trans hlast))
    exact ⟨i, hend, hlead⟩

theorem not_returns_of_neg {i : Int} (hi : i < 0) (slices : List Slice) :
    ¬ Returns (unframeStep buf) ⟨i, out⟩ (.ok slices) := by
  have hnone : byteAt? buf i = none := if_neg (Int.not_le.mpr hi)
  obtain ⟨-, e, he⟩ | ⟨hflag, -⟩ | ⟨hend, -⟩ := unframeStep_cases buf ⟨i, out⟩
  · rw [returns_iff_of_done he]
    exact fun h => nomatch h
  · cases hnone.symm.trans hflag
  · dsimp only at hend
    omega

theorem leads_frames_start {rest : List UInt8} (h : ∀ p ∈ payloads, p.length < 2 ^ 31)
    (hbuf : buf = payloads.flatMap frameMessage ++ rest) : Leads (unframeStep buf) ⟨0, []⟩
      ⟨(payloads.flatMap frameMessage).length, slicesAt 0 payloads⟩ :=
  leads_frames [] [] h hbuf

theorem returns_frames (h : ∀ p ∈ payloads, p.length < 2 ^ 31) :
    UnframeMessages (payloads.flatMap frameMessage) (.ok (slicesAt 0 payloads)) := by
  have hlead := leads_frames_start h (List.append_nil (payloads.flatMap frameMessage)).symm
  refine hlead.returns_iff.mpr ((returns_iff_of_done ?_).mpr rfl)
  obtain ⟨⟨hr, -⟩, -⟩ | ⟨-, hle, -⟩ | ⟨-, hlast⟩ := unframeStep_cases
    (payloads.flatMap frameMessage)
    ⟨(payloads.flatMap frameMessage).length, slicesAt 0 payloads⟩
  · exact absurd hr (lt_irrefl _)
  · dsimp only at hle
    omega
  · exact hlast

/-- A range that ends before it starts is empty. -/
theorem bytes_subarray_of_le {a b : Int} (hb : 0 ≤ b) (hba : b ≤ a) :
    (subarray buf.length a b).bytes buf = [] := by
  have hclamp : clampOffset buf.length b ≤ clampOffset buf.length a := by
    rw [clampOffset_of_nonneg hb, clampOffset_of_nonneg (by omega)]
    omega
  rw [Slice.bytes, subarray, Nat.max_eq_left hclamp]
  apply List.drop_eq_nil_of_le
  rw [List.length_take]
  exact Nat.min_le_left _ _

/-- Where a frame declares a length with its top bit set, an empty message is returned. -/
theorem map_bytes_of_long {payload rest : List UInt8} (h : ∀ p ∈ payloads, p.length < 2 ^ 31)
    (hlong : 2 ^ 31 ≤ payload.length) (hlt : payload.length < 2 ^ 32)
    (hbuf : buf = payloads.flatMap frameMessage ++ (frameMessage payload ++ rest))
    {slices : List Slice} (hret : UnframeMessages buf (.ok slices)) :
    ∃ more, slices.map (Slice.bytes buf) =
      (slicesAt 0 payloads).map (Slice.bytes buf) ++ [] :: more := by
  have hstep := unframeStep_frame hlt (slicesAt 0 payloads) hbuf
  rw [UnframeMessages, (leads_frames_start h hbuf).returns_iff, returns_iff_of_next hstep,
    signed_of_le hlong] at hret
  by_cases hneg : ((payloads.flatMap frameMessage).length + 5 + (payload.length - 2 ^ 32) : Int) < 0
  · exact absurd hret (not_returns_of_neg hneg slices)
  · obtain ⟨i, -, hlead⟩ := exists_leads_of_returns hret
    obtain ⟨more, rfl⟩ := out_le_run hlead
    refine ⟨more.map (Slice.bytes buf), ?_⟩
    rw [List.map_append, List.map_append, List.map_singleton,
      bytes_subarray_of_le (by omega) (by omega), List.append_assoc, List.singleton_append]

/-- The framed payloads are returned, in order and with nothing left over. -/
def ReadsBack (payloads : List (List UInt8)) : Prop :=
  ∃ slices, UnframeMessages (payloads.flatMap frameMessage) (.ok slices) ∧
    slices.map (Slice.bytes (payloads.flatMap frameMessage)) = payloads

theorem not_readsBack {payloads more : List (List UInt8)} {payload : List UInt8}
    (h : ∀ p ∈ payloads, p.length < 2 ^ 31) (hlong : 2 ^ 31 ≤ payload.length)
    (hlt : payload.length < 2 ^ 32) : ¬ ReadsBack (payloads ++ payload :: more) := by
  rintro ⟨slices, hret, hbytes⟩
  have hbuf : (payloads ++ payload :: more).flatMap frameMessage =
      payloads.flatMap frameMessage ++ (frameMessage payload ++ more.flatMap frameMessage) := by
    simp
  obtain ⟨others, hmap⟩ := map_bytes_of_long h hlong hlt hbuf hret
  rw [hmap] at hbytes
  have hlen : (slicesAt 0 payloads).length = payloads.length := by
    have hslices := map_bytes_slicesAt [] (List.nil_append (payloads.flatMap frameMessage)).symm
    simpa using congrArg List.length hslices
  obtain ⟨-, hrest⟩ := List.append_inj hbytes (by rw [List.length_map, hlen])
  obtain ⟨rfl, -⟩ := List.cons.inj hrest
  exact absurd hlong (by decide)

/-- The first of the members that do not meet a condition. -/
theorem exists_first {α : Type} {p : α → Prop} [DecidablePred p] {l : List α}
    (h : ¬ ∀ a ∈ l, p a) :
    ∃ before a after, l = before ++ a :: after ∧ (∀ b ∈ before, p b) ∧ ¬ p a := by
  induction l with
  | nil => exact absurd (fun _ ha => nomatch ha) h
  | cons a l ih =>
    by_cases ha : p a
    · have hl : ¬ ∀ b ∈ l, p b := fun hl => h (List.forall_mem_cons.mpr ⟨ha, hl⟩)
      obtain ⟨before, b, after, rfl, hbefore, hb⟩ := ih hl
      exact ⟨a :: before, b, after, rfl, List.forall_mem_cons.mpr ⟨ha, hbefore⟩, hb⟩
    · exact ⟨[], a, l, rfl, by simp, ha⟩

/-- Payloads are read back when no length needs the top bit of its word. -/
theorem readsBack_iff (h : ∀ p ∈ payloads, p.length < 2 ^ 32) :
    ReadsBack payloads ↔ ∀ p ∈ payloads, p.length < 2 ^ 31 := by
  constructor
  · intro hback
    by_contra hnot
    obtain ⟨before, p, after, rfl, hbefore, hp⟩ := exists_first hnot
    have hlt : p.length < 2 ^ 32 := h p (List.mem_append_right _ (List.mem_cons_self ..))
    exact not_readsBack hbefore (Nat.not_lt.mp hp) hlt hback
  · exact fun hshort => ⟨_, returns_frames hshort, map_bytes_slicesAt [] rfl⟩

/-- An empty payload and one of a byte. -/
theorem readsBack_short : ReadsBack [[], [7]] := by
  have hlong : ∀ p ∈ ([[], [7]] : List (List UInt8)), p.length < 2 ^ 32 := by decide
  exact (readsBack_iff hlong).mpr (by decide)

/-- One payload of 2 GiB. -/
theorem not_readsBack_long : ¬ ∀ payloads : List (List UInt8),
    (∀ p ∈ payloads, p.length < 2 ^ 32) → ReadsBack payloads := by
  intro h
  have hlen : (List.replicate (2 ^ 31) (0 : UInt8)).length = 2 ^ 31 := List.length_replicate ..
  have hback := h [List.replicate (2 ^ 31) 0] (by
    intro p hp
    rw [List.mem_singleton.mp hp, hlen]
    exact Nat.pow_lt_pow_right (by decide) (by decide))
  refine not_readsBack (List.forall_mem_nil _) ?_ ?_ hback
  · rw [hlen]
  · rw [hlen]
    exact Nat.pow_lt_pow_right (by decide) (by decide)

end RoundTrip

section Walk

variable {buf : List UInt8} {i : Int} {out slices : List Slice} {s t : FrameState}

/-- The ranges lie in the buffer, each after a header of its own, and follow one another. -/
def InOrder (buf : List UInt8) (slices : List Slice) : Prop :=
  (∀ s ∈ slices, 5 ≤ s.start ∧ s.start ≤ s.stop ∧ s.stop ≤ buf.length) ∧
    slices.Pairwise fun a b => a.stop + 5 ≤ b.start

/-- Unframing ends, and what it returns is in order. -/
def UnframesSafely (buf : List UInt8) : Prop :=
  (∃ r, UnframeMessages buf r) ∧ ∀ slices, UnframeMessages buf (.ok slices) → InOrder buf slices

/-- The loop takes a frame from the offset. -/
def FrameStart (buf : List UInt8) (i : Int) : Prop :=
  i < buf.length ∧ ∃ out, Leads (unframeStep buf) ⟨0, []⟩ ⟨i, out⟩

/-- The top bit of the length at the offset is clear. -/
def TopBitClear (buf : List UInt8) (i : Int) : Prop := headerByte buf i 1 < 128

theorem topBitClear_iff : TopBitClear buf i ↔ 0 ≤ declaredLength buf i := by
  have h₁ := (headerByte buf i 1).toNat_lt
  have h₂ := (headerByte buf i 2).toNat_lt
  have h₃ := (headerByte buf i 3).toNat_lt
  have h₄ := (headerByte buf i 4).toNat_lt
  rw [declaredLength_eq, TopBitClear, UInt8.lt_iff_toNat_lt, signed, word]
  change _ < 128 ↔ _
  split <;> omega

/-- The invariant of a walk that meets no top bit. -/
def Ordered (buf : List UInt8) (s : FrameState) : Prop :=
  0 ≤ s.i ∧ InOrder buf s.out ∧ ∀ a ∈ s.out, (a.stop : Int) ≤ s.i

theorem Ordered.step (h : Ordered buf s) (hclear : 0 ≤ declaredLength buf s.i)
    (hstep : unframeStep buf s = .inl t) : Ordered buf t ∧ s.i + 5 ≤ t.i ∧ t.i ≤ buf.length := by
  obtain ⟨hpos, ⟨hin, hpair⟩, hstop⟩ := h
  obtain ⟨-, e, he⟩ | ⟨-, hheader, hend, he⟩ | ⟨-, he⟩ := unframeStep_cases buf s
  · cases he.symm.trans hstep
  · obtain rfl := Sum.inl.inj (he.symm.trans hstep)
    obtain ⟨a, ha⟩ := Int.eq_ofNat_of_zero_le (show 0 ≤ s.i + 5 by omega)
    obtain ⟨b, hb⟩ := Int.eq_ofNat_of_zero_le
      (show 0 ≤ s.i + 5 + declaredLength buf s.i by omega)
    have hrange : subarray buf.length (s.i + 5) (s.i + 5 + declaredLength buf s.i) = ⟨a, b⟩ := by
      rw [ha] at hb hend ⊢
      rw [hb]
      exact subarray_of_le (by omega) (by omega)
    rw [hrange]
    refine ⟨⟨by dsimp only; omega, ⟨?_, ?_⟩, ?_⟩, by dsimp only; omega, hend⟩
    · intro c hc
      obtain hc | hc := List.mem_append.mp hc
      · exact hin c hc
      · obtain rfl := List.mem_singleton.mp hc
        dsimp only
        omega
    · refine List.pairwise_append.mpr ⟨hpair, List.pairwise_singleton _ _, ?_⟩
      intro c hc d hd
      obtain rfl := List.mem_singleton.mp hd
      have hc := hstop c hc
      dsimp only
      omega
    · intro c hc
      obtain hc | hc := List.mem_append.mp hc
      · have hc := hstop c hc
        dsimp only
        omega
      · obtain rfl := List.mem_singleton.mp hc
        dsimp only
        omega
  · cases he.symm.trans hstep

/-- A walk that meets no top bit ends in order. -/
theorem unframesSafely_of_clear
    (h : ∀ i, FrameStart buf i → TopBitClear buf i) : UnframesSafely buf := by
  have hstart : Ordered buf ⟨0, []⟩ := ⟨le_refl 0, ⟨by simp, .nil⟩, by simp⟩
  have hstep : ∀ s t : FrameState, (Leads (unframeStep buf) ⟨0, []⟩ s ∧ Ordered buf s) →
      unframeStep buf s = .inl t →
      (Leads (unframeStep buf) ⟨0, []⟩ t ∧ Ordered buf t) ∧ s.i + 5 ≤ t.i ∧ t.i ≤ buf.length := by
    rintro s t ⟨hlead, hs⟩ ht
    have hclear : 0 ≤ declaredLength buf s.i := by
      refine topBitClear_iff.mp (h s.i ⟨?_, s.out, hlead⟩)
      obtain ⟨⟨hlt, -⟩, -⟩ | ⟨-, hheader, -⟩ | ⟨-, he⟩ := unframeStep_cases buf s
      · exact hlt
      · omega
      · cases he.symm.trans ht
    obtain ⟨hordered, hle, hend⟩ := hs.step hclear ht
    exact ⟨⟨hlead.tail ht, hordered⟩, hle, hend⟩
  refine ⟨?_, fun slices hret => ?_⟩
  · refine exists_returns (I := fun s => Leads (unframeStep buf) ⟨0, []⟩ s ∧ Ordered buf s)
      (fun s => (buf.length - s.i : Int).toNat) ⟨.refl, hstart⟩ fun s t hs ht => ?_
    obtain ⟨ht, hle, hend⟩ := hstep s t hs ht
    exact ⟨ht, by omega⟩
  · obtain ⟨i, -, hlead⟩ := exists_leads_of_returns hret
    have hlast := hlead.invariant (I := fun s => Leads (unframeStep buf) ⟨0, []⟩ s ∧ Ordered buf s)
      ⟨.refl, hstart⟩ fun s t hs ht => (hstep s t hs ht).1
    exact hlast.2.2.1

/-- The turn at an offset whose frame is not refused. -/
theorem unframeStep_of_not_refused (hlt : s.i < buf.length) (h : ¬ IsRefused buf s.i) :
    0 ≤ s.i ∧ s.i + 5 ≤ buf.length ∧
      unframeStep buf s = .inl ⟨s.i + 5 + declaredLength buf s.i, s.out ++
        [subarray buf.length (s.i + 5) (s.i + 5 + declaredLength buf s.i)]⟩ := by
  obtain ⟨hr, -⟩ | ⟨hflag, hheader, -, hstep⟩ | ⟨hend, -⟩ := unframeStep_cases buf s
  · exact absurd hr h
  · refine ⟨?_, hheader, hstep⟩
    by_contra hneg
    rw [byteAt?, if_neg hneg] at hflag
    cases hflag
  · omega

/-- Two frames in a row that are returned stand one after the other. -/
theorem not_inOrder_of_back {a b : Slice} (h : out ++ [a] ++ [b] <+: slices)
    (hback : b.start < a.stop + 5) : ¬ InOrder buf slices := by
  rintro ⟨-, hpair⟩
  have hpair := hpair.sublist h.sublist
  rw [List.append_assoc, List.singleton_append] at hpair
  have hab := List.rel_of_pairwise_cons (List.pairwise_append.mp hpair).2.1
    (List.mem_singleton_self b)
  omega

/-- A frame with the top bit set leads back into the buffer, where the loop goes on. -/
theorem topBitClear_of_safe (hsafe : UnframesSafely buf)
    (hnone : ∀ i, FrameStart buf i → ¬ IsRefused buf i) (h : FrameStart buf i) :
    TopBitClear buf i := by
  obtain ⟨r, hret⟩ := hsafe.1
  obtain ⟨last, hlead, hlast⟩ := id hret.exists_last
  obtain ⟨hr, -⟩ | ⟨-, -, -, he⟩ | ⟨-, he⟩ := unframeStep_cases buf last
  · exact absurd hr (hnone _ ⟨hr.1, _, hlead⟩)
  · cases he.symm.trans hlast
  obtain rfl := Sum.inr.inj (he.symm.trans hlast)
  have hordered := hsafe.2 last.out hret
  by_contra htop
  have hneg : declaredLength buf i < 0 := not_le.mp fun hle => htop (topBitClear_iff.mpr hle)
  obtain ⟨hlt, out, hi⟩ := id h
  obtain ⟨hpos, hheader, hstep⟩ := unframeStep_of_not_refused (s := ⟨i, out⟩) hlt (hnone i h)
  dsimp only at hpos hheader hstep
  have hj := hi.tail hstep
  have hstart : FrameStart buf (i + 5 + declaredLength buf i) := ⟨by omega, _, hj⟩
  obtain ⟨hpos', hheader', hstep'⟩ := unframeStep_of_not_refused
    (s := ⟨i + 5 + declaredLength buf i, out ++ [_]⟩) hstart.1 (hnone _ hstart)
  dsimp only at hpos' hheader' hstep'
  rw [UnframeMessages, hj.returns_iff, returns_iff_of_next hstep'] at hret
  obtain ⟨k, -, hend⟩ := exists_leads_of_returns hret
  refine not_inOrder_of_back (out_le_run hend) ?_ hordered
  have hfirst := clampOffset_of_nonneg (n := buf.length) (show 0 ≤ i + 5 by omega)
  have hsecond := clampOffset_of_nonneg (n := buf.length)
    (show 0 ≤ i + 5 + declaredLength buf i + 5 by omega)
  simp only [subarray, hfirst, hsecond]
  omega

/-- Unframing is safe when a frame is refused or no frame declares a length with its top bit
set. -/
theorem unframesSafely_iff (buf : List UInt8) : UnframesSafely buf ↔
    (∃ i, FrameStart buf i ∧ IsRefused buf i) ∨ ∀ i, FrameStart buf i → TopBitClear buf i := by
  constructor
  · intro hsafe
    by_cases hrefused : ∃ i, FrameStart buf i ∧ IsRefused buf i
    · exact Or.inl hrefused
    · exact Or.inr fun i hi =>
        topBitClear_of_safe hsafe (fun j hj hr => hrefused ⟨j, hj, hr⟩) hi
  · rintro (⟨i, ⟨hlt, out, hlead⟩, hrefused⟩ | hclear)
    · obtain ⟨-, e, he⟩ | ⟨hflag, hheader, hend, -⟩ | ⟨hend, -⟩ :=
        unframeStep_cases buf ⟨i, out⟩
      · refine ⟨⟨_, hlead.returns_iff.mpr ((returns_iff_of_done he).mpr rfl)⟩, ?_⟩
        intro slices hret
        rw [UnframeMessages, hlead.returns_iff, returns_iff_of_done he] at hret
        cases hret
      · obtain ⟨-, hr | hr | hr⟩ := hrefused
        · dsimp only at hheader
          omega
        · exact absurd hflag hr
        · dsimp only at hend
          omega
      · dsimp only at hend
        omega
    · exact unframesSafely_of_clear hclear

/-- A length that leads back to its own header. -/
theorem not_unframesSafely : ¬ UnframesSafely [0, 255, 255, 255, 251] := by
  intro hsafe
  obtain ⟨r, hret⟩ := hsafe.1
  obtain ⟨last, hlead, hlast⟩ := hret.exists_last
  have hlen : declaredLength [0, 255, 255, 255, 251] 0 = -5 := by decide
  have hstep : ∀ out, unframeStep [0, 255, 255, 255, 251] ⟨0, out⟩ =
      .inl ⟨0, out ++ [subarray 5 5 0]⟩ := by
    intro out
    simp [unframeStep, hlen, byteAt?]
  have hzero : last.i = 0 := by
    refine hlead.invariant (I := fun s => s.i = 0) rfl ?_
    rintro ⟨_, out⟩ t rfl ht
    obtain rfl := Sum.inl.inj ((hstep out).symm.trans ht)
    rfl
  obtain ⟨i, out⟩ := last
  obtain rfl : i = 0 := hzero
  cases (hstep out).symm.trans hlast

end Walk

end OpenWop.Otlp
