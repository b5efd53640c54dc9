import OpenWop.Js.ToNumber
import OpenWop.Js.Utf8Decode

/-!
# The webhook receiver

A delivery is checked in this order: its algorithm, its signature header, replay, its
timestamp, the freshness of the timestamp, and the HMAC over the timestamp and the body.
An accepted delivery is remembered by the text of its signature header.
-/

namespace OpenWop.Webhook

open OpenWop.Js

/-- HMAC-SHA256 under a secret. -/
abbrev Hmac := JsString → List UInt8 → Vector UInt8 32

section Hex

/-- The text has hexadecimal digits of either case only, and at least one. -/
def isHexText (s : JsString) : Bool := !s.isEmpty && s.all (digitValue · < 16)

/-- `Buffer.from(s, 'hex')`. It stops before what is not a pair of digits. -/
def bytesOfHex : JsString → List UInt8
  | u :: v :: rest =>
    if digitValue u < 16 ∧ digitValue v < 16 then
      UInt8.ofNat (digitValue u * 16 + digitValue v) :: bytesOfHex rest
    else []
  | _ => []

theorem digitValue_hexDigit {n : Nat} (h : n < 16) : digitValue (hexDigit n) = n := by
  interval_cases n <;> rfl

@[simp] theorem bytesOfHex_hexText (bytes : List UInt8) : bytesOfHex (hexText bytes) = bytes := by
  induction bytes with
  | nil => rfl
  | cons b rest ih =>
    have hb := b.toNat_lt
    have hi : digitValue (hexDigit (b.toNat / 16)) = b.toNat / 16 := digitValue_hexDigit (by omega)
    have lo : digitValue (hexDigit (b.toNat % 16)) = b.toNat % 16 := digitValue_hexDigit (by omega)
    change bytesOfHex (hexDigit (b.toNat / 16) :: hexDigit (b.toNat % 16) :: hexText rest) =
      b :: rest
    have hsum : b.toNat / 16 * 16 + b.toNat % 16 = b.toNat := by omega
    rw [bytesOfHex, hi, lo, if_pos (by omega), ih, hsum, UInt8.ofNat_toNat]

theorem isHexText_hexText {bytes : List UInt8} (h : bytes ≠ []) :
    isHexText (hexText bytes) = true := by
  obtain ⟨b, rest, rfl⟩ := List.exists_cons_of_ne_nil h
  rw [isHexText, Bool.and_eq_true, List.all_eq_true]
  refine ⟨rfl, fun u hu => ?_⟩
  obtain ⟨b, -, hb⟩ := List.mem_flatMap.mp hu
  have hlt := b.toNat_lt
  simp only [hexByte, List.mem_cons, List.not_mem_nil, or_false] at hb
  rw [decide_eq_true_eq]
  rcases hb with rfl | rfl
  · rw [digitValue_hexDigit (by omega)]
    omega
  · rw [digitValue_hexDigit (by omega)]
    omega

end Hex

/-- `SIGNATURE_PREFIX`. -/
def signaturePrefix : JsString := js "sha256="

/-- `DEFAULT_FRESHNESS_WINDOW_SECONDS`. -/
def defaultFreshnessWindowSeconds : JsNumber := .ofNat 300

inductive WebhookRejectionReason where
  | signatureMismatch
  | timestampExpired
  | timestampTooFarInFuture
  | malformedSignatureHeader
  | malformedTimestampHeader
  | wrongAlgorithm
  | duplicateSignature
  deriving DecidableEq, Repr

inductive WebhookVerifyResult where
  | accepted
  | rejected (reason : WebhookRejectionReason)
  deriving DecidableEq, Repr

/-- The signature headers accepted so far. -/
structure WebhookReceiverState where
  acceptedSignatures : List JsString
  deriving DecidableEq, Repr

def createReceiverState : WebhookReceiverState := ⟨[]⟩

structure VerifyOptions where
  freshnessWindowSeconds : Option JsNumber
  nowSeconds : Option JsNumber

inductive RawBody where
  | text (s : JsString)
  | buffer (bytes : List UInt8)

/-- `bodyStr`. -/
def RawBody.bodyStr : RawBody → JsString
  | .text s => s
  | .buffer bytes => utf8Text bytes

/-- The bytes of the request. -/
def RawBody.bytes : RawBody → List UInt8
  | .text s => utf8 s
  | .buffer bytes => bytes

structure Delivery where
  signatureHeader : JsString
  algorithmHeader : Option JsString
  timestampHeader : JsString
  rawBody : RawBody

/-- The timestamp the header is read as. -/
def Delivery.timestamp (d : Delivery) : JsNumber := stringToNumber d.timestampHeader

/-- The hexadecimal text after the prefix of a signature header. -/
def providedHex (signatureHeader : JsString) : JsString :=
  signatureHeader.drop signaturePrefix.length

/-- The text the HMAC is computed over. -/
def signedText (timestamp : JsNumber) (rawBody : RawBody) : JsString :=
  timestamp.text ++ js "." ++ rawBody.bodyStr

/-- `digest('hex')` of the HMAC. -/
def expectedHex (hmac : Hmac) (secret : JsString) (timestamp : JsNumber) (rawBody : RawBody) :
    JsString :=
  hexText (hmac secret (utf8 (signedText timestamp rawBody))).toList

/-- Why the timestamp is not fresh, if it is not. A window that is not positive admits all. -/
def staleness (options : VerifyOptions) (clock timestamp : JsNumber) :
    Option WebhookRejectionReason :=
  let window := options.freshnessWindowSeconds.getD defaultFreshnessWindowSeconds
  if (JsNumber.ofNat 0).lt window then
    let now := options.nowSeconds.getD clock
    let delta := now.sub timestamp
    if window.lt delta then some .timestampExpired
    else if delta.lt window.neg then some .timestampTooFarInFuture
    else none
  else none

/-- `verifyWebhookDelivery`. The clock reads `Math.floor(Date.now() / 1000)`. -/
def verifyWebhookDelivery (hmac : Hmac) (secret : JsString) (d : Delivery)
    (state : WebhookReceiverState) (options : VerifyOptions) (clock : JsNumber) :
    WebhookVerifyResult × WebhookReceiverState :=
  if d.algorithmHeader ≠ none ∧ d.algorithmHeader ≠ some (js "v1") then
    (.rejected .wrongAlgorithm, state)
  else if startsWith d.signatureHeader signaturePrefix = false then
    (.rejected .malformedSignatureHeader, state)
  else if isHexText (providedHex d.signatureHeader) = false then
    (.rejected .malformedSignatureHeader, state)
  else if d.signatureHeader ∈ state.acceptedSignatures then
    (.rejected .duplicateSignature, state)
  else if d.timestamp.isInteger = false ∨ d.timestamp.le (.ofNat 0) = true then
    (.rejected .malformedTimestampHeader, state)
  else match staleness options clock d.timestamp with
    | some reason => (.rejected reason, state)
    | none =>
      if bytesOfHex (providedHex d.signatureHeader) ≠
          bytesOfHex (expectedHex hmac secret d.timestamp d.rawBody) then
        (.rejected .signatureMismatch, state)
      else (.accepted, ⟨state.acceptedSignatures ++ [d.signatureHeader]⟩)

/-- `signPayload`, with the body it signs. -/
def signPayload (hmac : Hmac) (secret : JsString) (timestamp : JsNumber) (rawBody : RawBody) :
    Delivery where
  signatureHeader := signaturePrefix ++ expectedHex hmac secret timestamp rawBody
  algorithmHeader := some (js "v1")
  timestampHeader := timestamp.text
  rawBody := rawBody

section Accepted

variable {hmac : Hmac} {secret : JsString} {d : Delivery} {state : WebhookReceiverState}
  {options : VerifyOptions} {clock : JsNumber}

/-- A Number the timestamp check lets through. -/
structure IsTimestamp (x : JsNumber) : Prop where
  isInteger : x.isInteger = true
  positive : x.le (.ofNat 0) = false

/-- What an accepted delivery has passed. -/
structure Accepted (hmac : Hmac) (secret : JsString) (d : Delivery) (state : WebhookReceiverState)
    (options : VerifyOptions) (clock : JsNumber) : Prop where
  algorithm : d.algorithmHeader = none ∨ d.algorithmHeader = some (js "v1")
  hasPrefix : startsWith d.signatureHeader signaturePrefix = true
  hex : isHexText (providedHex d.signatureHeader) = true
  unseen : d.signatureHeader ∉ state.acceptedSignatures
  timestamp : IsTimestamp d.timestamp
  fresh : staleness options clock d.timestamp = none
  digest : bytesOfHex (providedHex d.signatureHeader) =
    (hmac secret (utf8 (signedText d.timestamp d.rawBody))).toList

variable (hmac secret d state options clock) in
/-- A delivery is accepted and remembered, or it is rejected and the state is as it was. -/
theorem verifyWebhookDelivery_cases :
    (Accepted hmac secret d state options clock ∧
      verifyWebhookDelivery hmac secret d state options clock =
        (.accepted, ⟨state.acceptedSignatures ++ [d.signatureHeader]⟩)) ∨
    (¬ Accepted hmac secret d state options clock ∧
      ∃ reason, verifyWebhookDelivery hmac secret d state options clock =
        (.rejected reason, state)) := by
  unfold verifyWebhookDelivery
  by_cases halg : d.algorithmHeader ≠ none ∧ d.algorithmHeader ≠ some (js "v1")
  · rw [if_pos halg]
    exact Or.inr ⟨fun h => h.algorithm.elim halg.1 halg.2, _, rfl⟩
  rw [if_neg halg]
  by_cases hprefix : startsWith d.signatureHeader signaturePrefix = false
  · rw [if_pos hprefix]
    exact Or.inr ⟨fun h => by simp [h.hasPrefix] at hprefix, _, rfl⟩
  rw [if_neg hprefix]
  by_cases hhex : isHexText (providedHex d.signatureHeader) = false
  · rw [if_pos hhex]
    exact Or.inr ⟨fun h => by simp [h.hex] at hhex, _, rfl⟩
  rw [if_neg hhex]
  by_cases hseen : d.signatureHeader ∈ state.acceptedSignatures
  · rw [if_pos hseen]
    exact Or.inr ⟨fun h => h.unseen hseen, _, rfl⟩
  rw [if_neg hseen]
  by_cases hts : d.timestamp.isInteger = false ∨ d.timestamp.le (.ofNat 0) = true
  · rw [if_pos hts]
    exact Or.inr ⟨fun h => by simp [h.timestamp.isInteger, h.timestamp.positive] at hts, _, rfl⟩
  rw [if_neg hts]
  cases hfresh : staleness options clock d.timestamp with
  | some reason => exact Or.inr ⟨fun h => by simp [h.fresh] at hfresh, _, rfl⟩
  | none =>
    simp only [expectedHex, bytesOfHex_hexText]
    by_cases hdigest : bytesOfHex (providedHex d.signatureHeader) ≠
        (hmac secret (utf8 (signedText d.timestamp d.rawBody))).toList
    · rw [if_pos hdigest]
      exact Or.inr ⟨fun h => hdigest h.digest, _, rfl⟩
    · rw [if_neg hdigest]
      rw [not_and_or, not_not, not_not] at halg
      rw [not_or, Bool.not_eq_false, Bool.not_eq_true] at hts
      exact Or.inl ⟨⟨halg, by simpa using hprefix, by simpa using hhex, hseen, ⟨hts.1, hts.2⟩,
        hfresh, not_not.mp hdigest⟩, rfl⟩

theorem accepted_iff : (verifyWebhookDelivery hmac secret d state options clock).1 = .accepted ↔
    Accepted hmac secret d state options clock := by
  rcases verifyWebhookDelivery_cases hmac secret d state options clock with
    ⟨h, he⟩ | ⟨h, reason, he⟩
  · simp [he, h]
  · simp [he, h]

end Accepted

section Signed

theorem isSurrogate_of_isNumberUnit {u : UInt16} (h : isNumberUnit u = true) :
    isSurrogate u = false := by
  simp only [isNumberUnit, Bool.or_eq_true, decide_eq_true_eq, isDigit_iff, ← UInt16.toNat_inj] at h
  rw [← Bool.not_eq_true, isSurrogate_iff]
  simp [unit] at h
  omega

/-- The scalar values of a body are what its bytes are read as. -/
theorem scalars_bodyStr (rawBody : RawBody) :
    scalars rawBody.bodyStr = utf8Decode rawBody.bytes := by
  cases rawBody with
  | text s => exact (utf8Decode_flatMap (scalars s)).symm
  | buffer bytes => exact scalars_utf8Text bytes

/-- The signed text is the timestamp, a point, and what the body's bytes are read as. -/
theorem scalars_signedText {timestamp : JsNumber} (h : IsTimestamp timestamp)
    (rawBody : RawBody) : scalars (signedText timestamp rawBody) =
      scalars (timestamp.text ++ js ".") ++ utf8Decode rawBody.bytes := by
  obtain ⟨d, rfl⟩ : ∃ d, timestamp = .finite d := by
    cases timestamp with
    | nan => exact absurd h.isInteger (by decide)
    | infinity b => exact absurd h.isInteger (by simp [JsNumber.isInteger])
    | finite d => exact ⟨d, rfl⟩
  have hplain : ∀ u ∈ (JsNumber.finite d).text ++ js ".", isSurrogate u = false := by
    intro u hu
    rcases List.mem_append.mp hu with hu | hu
    · exact isSurrogate_of_isNumberUnit (d.isNumberUnit_text.2 u hu)
    · rw [List.mem_singleton.mp hu]
      rfl
  rw [signedText, scalars_append hplain, scalars_bodyStr]

/-- Bodies of the same bytes are signed alike. -/
theorem utf8_signedText_congr {timestamp : JsNumber} (h : IsTimestamp timestamp)
    {rawBody rawBody' : RawBody} (hb : rawBody.bytes = rawBody'.bytes) :
    utf8 (signedText timestamp rawBody) = utf8 (signedText timestamp rawBody') := by
  rw [utf8, utf8, scalars_signedText h, scalars_signedText h, hb]

end Signed

/-- The HMAC of `1.x` under the secret `s`. -/
def sampleHmac : Hmac := fun _ _ =>
  ⟨#[130, 226, 29, 56, 53, 149, 157, 105, 99, 107, 192, 235, 93, 193, 117, 53, 28, 136, 31, 142,
    19, 88, 225, 79, 235, 153, 40, 152, 222, 65, 252, 230], rfl⟩

/-- The body `x` delivered at the timestamp 1. -/
def sampleDelivery : Delivery := signPayload sampleHmac (js "s") (.ofNat 1) (.text (js "x"))

/-- No freshness check. -/
def anyTime : VerifyOptions := ⟨some (.ofNat 0), none⟩

end OpenWop.Webhook
